import CommonFabric.DependencyEdges
import CommonFabric.TriggerReference

/-!
# Runs of registrations

A run sets and deletes what the actions read of one document, or registers the logs of the
actions in the whole index. A list that is taken out has to name each of its paths once: a
path's node is dropped with its last reader, and is then missing when the list names the
path again.
-/

namespace Scheduler

variable {Action : Type}

namespace PathNode

/-- The visits below a node, each of a path with readers and of no path twice. -/
structure Once (walked : List JsString) (visits : List (List JsString × JsSet Action)) : Prop where
  nodup : (visits.map (·.1)).Nodup
  below : ∀ v ∈ visits, walked <+: v.1
  readers : ∀ v ∈ visits, ∃ a, a ∈ v.2

theorem once_nil (walked : List JsString) :
    Once walked ([] : List (List JsString × JsSet Action)) := by
  refine ⟨List.nodup_nil, ?_, ?_⟩ <;> intro v hv <;> cases hv

theorem once_visit (node : PathNode Action) : Once node.path node.visit := by
  rw [visit]
  split
  case isTrue h =>
    refine ⟨List.nodup_singleton _, ?_, ?_⟩ <;> intro v hv <;> rw [List.mem_singleton.1 hv]
    obtain ⟨a, ha⟩ := List.exists_mem_of_length_pos h
    exact ⟨a, ha⟩
  case isFalse => exact once_nil _

variable {walked : List JsString}

/-- A visit at a node comes before those below it. -/
theorem once_append (node : PathNode Action) (hpath : node.path = walked)
    {visits : List (List JsString × JsSet Action)} (h : Once walked visits)
    (hbelow : ∀ v ∈ visits, v.1 ≠ walked) : Once walked (node.visit ++ visits) := by
  obtain rfl := hpath
  have hvisit := once_visit node
  refine ⟨?_, ?_, ?_⟩
  · rw [List.map_append, List.nodup_append]
    refine ⟨hvisit.nodup, h.nodup, fun p hp q hq heq => ?_⟩
    obtain ⟨v, hv, rfl⟩ := List.mem_map.1 hp
    obtain ⟨v', hv', rfl⟩ := List.mem_map.1 hq
    refine hbelow v' hv' (heq ▸ ?_)
    rw [visit] at hv
    split at hv
    · rw [List.mem_singleton.1 hv]
    · cases hv
  · intro v hv
    rcases List.mem_append.1 hv with hv | hv
    · exact hvisit.below v hv
    · exact h.below v hv
  · intro v hv
    rcases List.mem_append.1 hv with hv | hv
    · exact hvisit.readers v hv
    · exact h.readers v hv

theorem ne_of_longer {path : List JsString} {component : JsString}
    (h : walked ++ [component] <+: path) : path ≠ walked := by
  intro heq
  have := h.length_le
  rw [heq, List.length_append, List.length_singleton] at this
  omega

mutual
theorem once_belowNode {walked : List JsString} : {node : PathNode Action} → Placed walked node →
    Once walked node.belowNode
  | .mk _ actions children, .mk hnodup hplaced => by
    rw [belowNode]
    obtain ⟨hvisits, hbelow⟩ := once_belowNodes children hnodup hplaced
    refine once_append (.mk walked actions children) rfl hvisits fun v hv => ?_
    obtain ⟨c, _, hc⟩ := hbelow v hv
    exact ne_of_longer hc

theorem once_belowNodes {walked : List JsString} : (children : List (JsString × PathNode Action)) →
    (children.map (·.1)).Nodup → (∀ c ∈ children, Placed (walked ++ [c.1]) c.2) →
    Once walked (belowNodes children) ∧
      ∀ v ∈ belowNodes children, ∃ c ∈ children, walked ++ [c.1] <+: v.1
  | [], _, _ => by
    rw [belowNodes]
    exact ⟨once_nil walked, fun v hv => by cases hv⟩
  | (component, node) :: children, hnodup, hplaced => by
    rw [List.map_cons, List.nodup_cons] at hnodup
    obtain ⟨hrest, hbelow⟩ := once_belowNodes children hnodup.2 fun c hc =>
      hplaced c (List.mem_cons_of_mem _ hc)
    have hnode := once_belowNode (hplaced (component, node) List.mem_cons_self)
    rw [belowNodes]
    refine ⟨⟨?_, ?_, ?_⟩, ?_⟩
    · rw [List.map_append, List.nodup_append]
      refine ⟨hrest.nodup, hnode.nodup, fun p hp q hq heq => ?_⟩
      obtain ⟨v, hv, rfl⟩ := List.mem_map.1 hp
      obtain ⟨v', hv', rfl⟩ := List.mem_map.1 hq
      -- the two visits are below children of different components
      obtain ⟨c, hc, hv⟩ := hbelow v hv
      have hv' := hnode.below v' hv'
      rw [← heq] at hv'
      have hsame := (List.prefix_of_prefix_length_le hv hv' (by simp)).eq_of_length (by simp)
      rw [List.append_cancel_left_eq, List.cons.injEq] at hsame
      exact hnodup.1 (List.mem_map.2 ⟨c, hc, hsame.1⟩)
    · intro v hv
      rcases List.mem_append.1 hv with hv | hv
      · exact hrest.below v hv
      · exact (List.prefix_append _ _).trans (hnode.below v hv)
    · intro v hv
      rcases List.mem_append.1 hv with hv | hv
      · exact hrest.readers v hv
      · exact hnode.readers v hv
    · intro v hv
      rcases List.mem_append.1 hv with hv | hv
      · obtain ⟨c, hc, hv⟩ := hbelow v hv
        exact ⟨c, List.mem_cons_of_mem _ hc, hv⟩
      · exact ⟨_, List.mem_cons_self, hnode.below v hv⟩
end

theorem once_forEachMatching {node : PathNode Action}
    (h : Placed walked node) (writePath : List JsString) :
    Once walked (forEachMatching writePath node) := by
  induction writePath generalizing walked node with
  | nil =>
    obtain ⟨p, actions, children⟩ := node
    have hbelow := once_belowNode h
    rw [belowNode] at hbelow
    rw [forEachMatching]
    exact hbelow
  | cons component rest ih =>
    obtain ⟨p, actions, children⟩ := node
    obtain rfl : p = walked := h.path_eq
    rw [forEachMatching]
    cases hchild : child? component children with
    | none =>
      rw [List.append_nil]
      exact once_visit (mk p actions children)
    | some child =>
      cases h with
      | mk hnodup hplaced =>
        have hbelow := ih (hplaced _ (mem_of_child? hchild))
        refine once_append (mk p actions children) rfl
          ⟨hbelow.nodup, fun v hv => ?_, hbelow.readers⟩ fun v hv => ?_
        · exact (List.prefix_append _ _).trans (hbelow.below v hv)
        · exact ne_of_longer (hbelow.below v hv)

/-- A read that is there can be taken out. -/
theorem unindex_of_mem_reads [DecidableEq Action] (action : Action) (registered : List JsString)
    {a : Action} {path : List JsString} {node : PathNode Action} (h : a ∈ node.reads path) :
    ∃ node', unindex action registered path node = .ok node' := by
  induction path generalizing node with
  | nil =>
    obtain ⟨p, actions, children⟩ := node
    exact ⟨_, rfl⟩
  | cons component rest ih =>
    obtain ⟨p, actions, children⟩ := node
    rw [reads, PathNode.children] at h
    rw [unindex]
    cases hchild : child? component children with
    | none =>
      rw [hchild] at h
      exact absurd h (JsSet.not_mem_empty a)
    | some child =>
      rw [hchild] at h
      obtain ⟨child', hchild'⟩ := ih h
      dsimp only
      rw [hchild', Except.ok_bind]
      split
      · exact ⟨_, rfl⟩
      · exact ⟨_, rfl⟩

end PathNode

namespace EntityTriggers

variable [DecidableEq Action]

/-- All the paths that the record holds, as `#assertEquivalence` collects them. -/
def registered (t : EntityTriggers Action) : List (List JsString) :=
  t.pathsByAction.entries.flatMap (·.2)

variable {t : EntityTriggers Action}

theorem mem_registered {path : List JsString} :
    path ∈ t.registered ↔ ∃ a paths, t.pathsByAction.get a = some paths ∧ path ∈ paths := by
  rw [registered, List.mem_flatMap]
  constructor
  · rintro ⟨⟨a, paths⟩, he, hpath⟩
    exact ⟨a, paths, JsMap.get_of_mem he, hpath⟩
  · rintro ⟨a, paths, hget, hpath⟩
    exact ⟨(a, paths), JsMap.mem_of_get hget, hpath⟩

theorem unindexAll_of_nodup {action : Action} {paths : SortedAndCompactPaths}
    {root : PathNode Action} (hnodup : paths.Nodup) (h : ∀ p ∈ paths, action ∈ root.reads p) :
    ∃ root', unindexAll action paths root = .ok root' := by
  induction paths generalizing root with
  | nil => exact ⟨root, rfl⟩
  | cons path paths ih =>
    obtain ⟨hnot, hnodup⟩ := List.nodup_cons.1 hnodup
    obtain ⟨hpath, hpaths⟩ := List.forall_mem_cons.1 h
    obtain ⟨root₁, hone⟩ := PathNode.unindex_of_mem_reads action path hpath
    have hkept : ∀ p ∈ paths, action ∈ root₁.reads p := fun p hp => by
      rw [PathNode.mem_reads_unindex hone]
      exact ⟨hpaths p hp, fun h => hnot (h.2 ▸ hp)⟩
    obtain ⟨root', hrest⟩ := ih hnodup hkept
    exact ⟨root', List.foldlM_cons_ok.2 ⟨root₁, hone, hrest⟩⟩

theorem unindexAll_previous (ht : t.Holds) {action : Action}
    {previous : SortedAndCompactPaths} (hprevious : t.pathsByAction.get action = some previous)
    (hnodup : previous.Nodup) : ∃ root, unindexAll action previous t.root = .ok root := by
  refine unindexAll_of_nodup hnodup fun p hp => ?_
  rw [ht.reads, hprevious]
  exact hp

theorem set_total (ht : t.Holds) (action : Action)
    (paths : SortedAndCompactPaths) (h : ∀ previous, t.pathsByAction.get action = some previous →
      previous ≠ paths → previous.Nodup) : ∃ t', t.set action paths = .ok t' := by
  rw [set]
  cases hprevious : t.pathsByAction.get action with
  | none => exact ⟨_, rfl⟩
  | some previous =>
    dsimp only
    split
    case isTrue => exact ⟨_, rfl⟩
    case isFalse hne =>
      obtain ⟨root, hroot⟩ := unindexAll_previous ht hprevious (h previous hprevious hne)
      exact ⟨_, by rw [hroot, Except.ok_bind]⟩

theorem delete_total (ht : t.Holds) (action : Action)
    (h : ∀ previous, t.pathsByAction.get action = some previous → previous.Nodup) :
    ∃ t', t.delete action = .ok t' := by
  rw [delete]
  cases hprevious : t.pathsByAction.get action with
  | none => exact ⟨_, rfl⟩
  | some previous =>
    obtain ⟨root, hroot⟩ := unindexAll_previous ht hprevious (h previous hprevious)
    exact ⟨_, by dsimp only; rw [hroot, Except.ok_bind]⟩

end EntityTriggers

inductive TriggerCall (Action : Type) where
  | set (action : Action) (paths : SortedAndCompactPaths)
  | delete (action : Action)

namespace TriggerCall

variable [DecidableEq Action]

def apply (t : EntityTriggers Action) :
    TriggerCall Action → Except EngineError (EntityTriggers Action)
  | set action paths => t.set action paths
  | delete action => t.delete action

/-- What each action is registered for, by the calls alone. -/
def record (registered : Action → Option SortedAndCompactPaths) :
    TriggerCall Action → Action → Option SortedAndCompactPaths
  | set action paths => Function.update registered action (some paths)
  | delete action => Function.update registered action none

/-- The list that a call takes out has no path twice. -/
def TakesOutOnce (registered : Action → Option SortedAndCompactPaths) : TriggerCall Action → Prop
  | set action paths => ∀ previous, registered action = some previous → previous ≠ paths →
      previous.Nodup
  | delete action => ∀ previous, registered action = some previous → previous.Nodup

/-- So does every call of a run, each from what is registered before it. -/
def EachTakesOutOnce (registered : Action → Option SortedAndCompactPaths) :
    List (TriggerCall Action) → Prop
  | [] => True
  | call :: calls => call.TakesOutOnce registered ∧ EachTakesOutOnce (call.record registered) calls

theorem apply_total {t : EntityTriggers Action} (ht : t.Holds) {call : TriggerCall Action}
    (h : call.TakesOutOnce t.pathsByAction.get) :
    ∃ t', call.apply t = .ok t' ∧ t'.Holds ∧
      t'.pathsByAction.get = call.record t.pathsByAction.get := by
  cases call with
  | set action paths =>
    obtain ⟨t', hset⟩ := EntityTriggers.set_total ht action paths h
    obtain ⟨hholds, hget⟩ := EntityTriggers.set_ok ht hset
    refine ⟨t', hset, hholds, funext fun a => ?_⟩
    rw [hget, record, Function.update_apply]
  | delete action =>
    obtain ⟨t', hdelete⟩ := EntityTriggers.delete_total ht action h
    obtain ⟨hholds, hget⟩ := EntityTriggers.delete_ok ht hdelete
    refine ⟨t', hdelete, hholds, funext fun a => ?_⟩
    rw [hget, record, Function.update_apply]

theorem run_total {t : EntityTriggers Action} (ht : t.Holds) {calls : List (TriggerCall Action)}
    (h : EachTakesOutOnce t.pathsByAction.get calls) :
    ∃ t', calls.foldlM apply t = .ok t' ∧ t'.Holds ∧
      t'.pathsByAction.get = calls.foldl record t.pathsByAction.get := by
  induction calls generalizing t with
  | nil => exact ⟨t, rfl, ht, rfl⟩
  | cons call calls ih =>
    obtain ⟨t₁, hone, hholds, hget⟩ := apply_total ht h.1
    obtain ⟨t', hrest, hholds', hget'⟩ := ih hholds (hget ▸ h.2)
    refine ⟨t', List.foldlM_cons_ok.2 ⟨t₁, hone, hrest⟩, hholds', ?_⟩
    rw [hget', hget, List.foldl_cons]

end TriggerCall

/-- The trie answers as a scan of what is registered: a write visits the registered paths that
are a prefix or an extension of its own, each once, with the actions registered there, and
the reference yields the same paths. -/
structure EqualsScan [DecidableEq Action] (registered : Action → Option SortedAndCompactPaths)
    (t : EntityTriggers Action) : Prop where
  visited : ∀ writePath path, (∃ v ∈ t.forEachMatching writePath, v.1 = path) ↔
    (∃ a paths, registered a = some paths ∧ path ∈ paths) ∧
      (path <+: writePath ∨ writePath <+: path)
  once : ∀ writePath, ((t.forEachMatching writePath).map (·.1)).Nodup
  actions : ∀ writePath, ∀ v ∈ t.forEachMatching writePath, ∀ a,
    a ∈ v.2 ↔ ∃ paths, registered a = some paths ∧ v.1 ∈ paths
  reference : ∀ writePath path, path ∈ createTriggerReference t.registered writePath ↔
    ∃ v ∈ t.forEachMatching writePath, v.1 = path

namespace EntityTriggers

variable [DecidableEq Action]

theorem mem_getD_iff {paths? : Option SortedAndCompactPaths} {path : List JsString} :
    path ∈ paths?.getD [] ↔ ∃ paths, paths? = some paths ∧ path ∈ paths := by
  cases paths? with
  | none => simp
  | some paths => simp

theorem Holds.equalsScan {t : EntityTriggers Action} (h : t.Holds) :
    EqualsScan t.pathsByAction.get t := by
  have honce (writePath) := PathNode.once_forEachMatching h.placed writePath
  have hvisited : ∀ writePath path, (∃ v ∈ t.forEachMatching writePath, v.1 = path) ↔
      (∃ a paths, t.pathsByAction.get a = some paths ∧ path ∈ paths) ∧
        (path <+: writePath ∨ writePath <+: path) := by
    intro writePath path
    rw [← arraysOverlap_iff]
    constructor
    · rintro ⟨v, hv, rfl⟩
      obtain ⟨a, ha⟩ := (honce writePath).readers v hv
      obtain ⟨hmem, hoverlap⟩ := (visited_forEachMatching h writePath v.1 a).1 ⟨v, hv, rfl, ha⟩
      exact ⟨⟨a, mem_getD_iff.1 hmem⟩, hoverlap⟩
    · rintro ⟨⟨a, hread⟩, hoverlap⟩
      obtain ⟨v, hv, hpath, _⟩ :=
        (visited_forEachMatching h writePath path a).2 ⟨mem_getD_iff.2 hread, hoverlap⟩
      exact ⟨v, hv, hpath⟩
  refine ⟨hvisited, fun writePath => (honce writePath).nodup, fun writePath v hv a => ?_,
    fun writePath path => ?_⟩
  · constructor
    · intro ha
      exact mem_getD_iff.1 ((visited_forEachMatching h writePath v.1 a).1 ⟨v, hv, rfl, ha⟩).1
    · intro hread
      have hoverlap := arraysOverlap_iff.2 ((hvisited writePath v.1).1 ⟨v, hv, rfl⟩).2
      obtain ⟨v', hv', hpath, ha⟩ :=
        (visited_forEachMatching h writePath v.1 a).2 ⟨mem_getD_iff.2 hread, hoverlap⟩
      rw [← List.inj_on_of_nodup_map (honce writePath).nodup hv' hv hpath]
      exact ha
  · rw [mem_createTriggerReference, mem_registered, hvisited, arraysOverlap_iff]

/-- Tries that hold the same record are visited alike. -/
structure Alike (t t' : EntityTriggers Action) : Prop where
  paths : t.pathsByAction.get = t'.pathsByAction.get
  visits : ∀ writePath, ∀ v ∈ t.forEachMatching writePath, ∃ v' ∈ t'.forEachMatching writePath,
    v'.1 = v.1 ∧ ∀ a, a ∈ v'.2 ↔ a ∈ v.2

theorem alike_of_holds {t t' : EntityTriggers Action} (h : t.Holds) (h' : t'.Holds)
    (hpaths : t.pathsByAction.get = t'.pathsByAction.get) : t.Alike t' := by
  refine ⟨hpaths, fun writePath v hv => ?_⟩
  have hfound := (h.equalsScan.visited writePath v.1).1 ⟨v, hv, rfl⟩
  rw [hpaths] at hfound
  obtain ⟨v', hv', hpath⟩ := (h'.equalsScan.visited writePath v.1).2 hfound
  refine ⟨v', hv', hpath, fun a => ?_⟩
  rw [h'.equalsScan.actions writePath v' hv', h.equalsScan.actions writePath v hv, hpath, hpaths]

end EntityTriggers

section
variable [DecidableEq Action]

def setAt (action : Action) (triggerMap : TriggerMap Action)
    (entry : JsString × SortedAndCompactPaths) : Except EngineError (TriggerMap Action) := do
  let triggers ← (triggersFor triggerMap entry.1).set action entry.2
  .ok (Function.update triggerMap entry.1 (some triggers))

def SchedulerTriggerIndex.addActionReads (index : SchedulerTriggerIndex Action)
    (identity : ScopeKeyIdentity) (action : Action) (reads shallowReads : List IMemorySpaceAddress) :
    Except EngineError (SchedulerTriggerIndex Action) := do
  let pathsByEntity ← addressesToPathByEntity reads identity
  let nonRecursivePathsByEntity ← addressesToPathByEntity shallowReads identity
  let triggers ← pathsByEntity.entries.foldlM (setAt action) index.triggers
  let nonRecursiveTriggers ← nonRecursivePathsByEntity.entries.foldlM (setAt action)
    index.nonRecursiveTriggers
  let entities := (JsSet.empty.addAll pathsByEntity.keys).addAll nonRecursivePathsByEntity.keys
  .ok ⟨triggers, nonRecursiveTriggers,
    Function.update index.actionTriggerEntities action (some entities)⟩

variable {action : Action} {triggerMap m : TriggerMap Action}
  {next : JsMap JsString SortedAndCompactPaths} {identity : ScopeKeyIdentity}
  {index : SchedulerTriggerIndex Action}

theorem foldlM_setAt {map : JsMap JsString SortedAndCompactPaths}
    {entries : List (JsString × SortedAndCompactPaths)} (h : ∀ e ∈ entries, e ∈ map.entries)
    (m : TriggerMap Action) :
    entries.foldlM (setAt action) m = (entries.map (·.1)).foldlM (applyDeltaAt action map) m := by
  induction entries generalizing m with
  | nil => rfl
  | cons e entries ih =>
    obtain ⟨he, hentries⟩ := List.forall_mem_cons.1 h
    have hone : setAt action m e = applyDeltaAt action map m e.1 := by
      rw [applyDeltaAt, JsMap.get_of_mem he]
      rfl
    rw [List.map_cons, List.foldlM_cons, List.foldlM_cons, hone]
    congr 1
    funext m'
    exact ih hentries m'

/-- Two folds in one go are the two folds. -/
theorem foldlM_pair_ok {α β γ ε : Type} {f : α → γ → Except ε α} {g : β → γ → Except ε β}
    {xs : List γ} {a c : α} {b d : β} :
    xs.foldlM (fun maps x => do
        let x' ← f maps.1 x
        let y' ← g maps.2 x
        .ok (x', y')) (a, b) = .ok (c, d) ↔ xs.foldlM f a = .ok c ∧ xs.foldlM g b = .ok d := by
  induction xs generalizing a b with
  | nil => simp
  | cons x xs ih =>
    simp only [List.foldlM_cons_ok, Except.bind_ok_iff]
    constructor
    · rintro ⟨_, ⟨a', ha, b', hb, hab⟩, hrest⟩
      obtain rfl := Except.ok.inj hab
      obtain ⟨hc, hd⟩ := ih.1 hrest
      exact ⟨⟨a', ha, hc⟩, ⟨b', hb, hd⟩⟩
    · rintro ⟨⟨a', ha, hc⟩, ⟨b', hb, hd⟩⟩
      exact ⟨(a', b'), ⟨a', ha, b', hb, rfl⟩, ih.2 ⟨hc, hd⟩⟩

/-- Every trie of the map holds what its record does, and is kept for some reader. -/
structure Kept (triggerMap : TriggerMap Action) : Prop where
  held : Held triggerMap
  read : ∀ entity t, triggerMap entity = some t → ∃ a, pathsAt triggerMap entity a ≠ none

theorem kept_none : Kept (fun _ => none : TriggerMap Action) :=
  ⟨fun _ _ h => (by cases h), fun _ _ h => (by cases h)⟩

theorem kept_applyDeltaAt {triggerMap' : TriggerMap Action} {entity : JsString}
    (hkept : Kept triggerMap)
    (h : applyDeltaAt action next triggerMap entity = .ok triggerMap') : Kept triggerMap' := by
  obtain ⟨hheld, hpaths⟩ := applyDeltaAt_ok hkept.held h
  refine ⟨hheld, fun e t ht => ?_⟩
  rw [applyDeltaAt] at h
  cases hnext : next.get entity with
  | some paths =>
    rw [hnext] at h
    obtain ⟨t', _, h⟩ := Except.bind_ok_iff.1 h
    obtain rfl := Except.ok.inj h
    by_cases he : e = entity
    · refine ⟨action, ?_⟩
      rw [hpaths, if_pos ⟨he, rfl⟩, hnext]
      exact Option.some_ne_none paths
    · rw [Function.update_of_ne he] at ht
      obtain ⟨a, ha⟩ := hkept.read e t ht
      exact ⟨a, by rwa [hpaths, if_neg fun h => he h.1]⟩
  | none =>
    rw [hnext] at h
    dsimp only at h
    rw [removeActionFromTriggerMap] at h
    cases hbefore : triggerMap entity with
    | none =>
      rw [hbefore] at h
      obtain rfl := Except.ok.inj h
      exact hkept.read e t ht
    | some t₀ =>
      rw [hbefore] at h
      obtain ⟨t', _, h⟩ := Except.bind_ok_iff.1 h
      obtain rfl := Except.ok.inj h
      by_cases he : e = entity
      · subst he
        rw [Function.update_self] at ht
        split at ht
        case isTrue => cases ht
        case isFalse hsize =>
          obtain rfl := Option.some.inj ht
          obtain ⟨entry, hentry⟩ := List.exists_mem_of_length_pos (Nat.pos_of_ne_zero hsize)
          refine ⟨entry.1, ?_⟩
          rw [pathsAt, Function.update_self, if_neg hsize, Option.bind_some, JsMap.get_of_mem hentry]
          exact Option.some_ne_none entry.2
      · rw [Function.update_of_ne he] at ht
        obtain ⟨a, ha⟩ := hkept.read e t ht
        exact ⟨a, by rwa [hpaths, if_neg fun h => he h.1]⟩

theorem applyDeltaAt_total
    (next : JsMap JsString SortedAndCompactPaths) {entity : JsString} (hheld : Held triggerMap)
    (h : ∀ previous, pathsAt triggerMap entity action = some previous →
      next.get entity ≠ some previous → previous.Nodup) :
    ∃ triggerMap', applyDeltaAt action next triggerMap entity = .ok triggerMap' := by
  rw [applyDeltaAt]
  cases hnext : next.get entity with
  | some paths =>
    obtain ⟨hholds, hfound⟩ := triggersFor_holds hheld entity
    obtain ⟨t', ht'⟩ := EntityTriggers.set_total hholds action paths
      fun previous hprevious hne => by
        refine h previous (by rw [← hfound, hprevious]) fun heq => hne ?_
        rw [hnext] at heq
        exact (Option.some.inj heq).symm
    exact ⟨_, by dsimp only; rw [ht', Except.ok_bind]⟩
  | none =>
    dsimp only
    rw [removeActionFromTriggerMap]
    cases hbefore : triggerMap entity with
    | none => exact ⟨_, rfl⟩
    | some t =>
      obtain ⟨t', ht'⟩ := EntityTriggers.delete_total (hheld entity t hbefore) action
        fun previous hprevious => by
          refine h previous (by rw [pathsAt, hbefore, Option.bind_some, hprevious]) ?_
          rw [hnext]
          exact (Option.some_ne_none previous).symm
      exact ⟨_, by dsimp only; rw [ht', Except.ok_bind]⟩

theorem kept_foldlM {triggerMap' : TriggerMap Action} {entities : List JsString}
    (hkept : Kept triggerMap)
    (h : entities.foldlM (applyDeltaAt action next) triggerMap = .ok triggerMap') :
    Kept triggerMap' := by
  induction entities generalizing triggerMap with
  | nil =>
    obtain rfl := Except.ok.inj h
    exact hkept
  | cons entity entities ih =>
    obtain ⟨m, hone, hrest⟩ := List.foldlM_cons_ok.1 h
    exact ih (kept_applyDeltaAt hkept hone) hrest

theorem foldlM_applyDeltaAt_total (action : Action)
    (next : JsMap JsString SortedAndCompactPaths) (entities : List JsString)
    (hheld : Held triggerMap) (h : ∀ e previous, pathsAt triggerMap e action = some previous →
      next.get e ≠ some previous → previous.Nodup) :
    ∃ triggerMap', entities.foldlM (applyDeltaAt action next) triggerMap = .ok triggerMap' := by
  induction entities generalizing triggerMap with
  | nil => exact ⟨triggerMap, rfl⟩
  | cons entity entities ih =>
    obtain ⟨m, hone⟩ := applyDeltaAt_total next hheld (h entity)
    obtain ⟨hheld', hpaths⟩ := applyDeltaAt_ok hheld hone
    obtain ⟨m', hrest⟩ := ih hheld' fun e previous hprevious hne => by
      rw [hpaths] at hprevious
      split at hprevious
      case isTrue he => exact absurd (he.1 ▸ hprevious) hne
      case isFalse => exact h e previous hprevious hne
    exact ⟨m', List.foldlM_cons_ok.2 ⟨m, hone, hrest⟩⟩

/-- The tries of two maps are alike at every document. -/
def SameTriggers (m m' : TriggerMap Action) : Prop :=
  ∀ entity, Option.Rel (fun t t' => t.Alike t' ∧ t'.Alike t) (m entity) (m' entity)

theorem sameTriggers_of_kept {m' : TriggerMap Action} (h : Kept m) (h' : Kept m')
    (hpaths : ∀ e a, pathsAt m e a = pathsAt m' e a) : SameTriggers m m' := by
  intro entity
  have hat : ∀ {m : TriggerMap Action} {t : EntityTriggers Action}, m entity = some t →
      ∀ a, pathsAt m entity a = t.pathsByAction.get a := by
    intro m t ht a
    rw [pathsAt, ht, Option.bind_some]
  cases ht : m entity with
  | none =>
    cases ht' : m' entity with
    | none => exact .none
    | some t' =>
      obtain ⟨a, ha⟩ := h'.read entity t' ht'
      rw [← hpaths, pathsAt, ht] at ha
      exact absurd rfl ha
  | some t =>
    cases ht' : m' entity with
    | none =>
      obtain ⟨a, ha⟩ := h.read entity t ht
      rw [hpaths, pathsAt, ht'] at ha
      exact absurd rfl ha
    | some t' =>
      have hget : t.pathsByAction.get = t'.pathsByAction.get :=
        funext fun a => by rw [← hat ht, hpaths, hat ht']
      have hholds := h.held entity t ht
      have hholds' := h'.held entity t' ht'
      exact .some ⟨EntityTriggers.alike_of_holds hholds hholds' hget,
        EntityTriggers.alike_of_holds hholds' hholds hget.symm⟩

structure SchedulerTriggerIndex.Same (d r : SchedulerTriggerIndex Action) : Prop where
  triggers : SameTriggers d.triggers r.triggers
  nonRecursiveTriggers : SameTriggers d.nonRecursiveTriggers r.nonRecursiveTriggers
  entities : d.actionTriggerEntities = r.actionTriggerEntities

theorem get_of_not_mem_keys {map : JsMap JsString SortedAndCompactPaths} {e : JsString}
    (h : e ∉ map.keys) : map.get e = none := by
  cases hget : map.get e with
  | none => rfl
  | some paths => exact absurd (List.mem_map.2 ⟨(e, paths), JsMap.mem_of_get hget, rfl⟩) h

theorem delta_map
    {prev : JsMap JsString SortedAndCompactPaths} (next : JsMap JsString SortedAndCompactPaths)
    (hkept : Kept m) (hprev : ∀ e, pathsAt m e action = prev.get e)
    (honce : ∀ e paths, prev.get e = some paths → paths.Nodup) :
    ∃ m', applyActionReadDeltaToMap m action prev next = .ok m' ∧ Kept m' ∧
      ∀ e a, pathsAt m' e a = if a = action then next.get e else pathsAt m e a := by
  obtain ⟨m', hm'⟩ := foldlM_applyDeltaAt_total action next
    ((JsSet.empty.addAll prev.keys).addAll next.keys).items hkept.held
    fun e previous hprevious _ => honce e previous (by rw [← hprev, hprevious])
  exact ⟨m', hm', kept_foldlM hkept hm', (applyActionReadDeltaToMap_ok hkept.held hprev hm').2⟩

theorem remove_map {m' : TriggerMap Action} {entities : List JsString}
    (hkept : Kept m) (hentities : ∀ e, pathsAt m e action ≠ none → e ∈ entities)
    (h : entities.foldlM (applyDeltaAt action .empty) m = .ok m') :
    Kept m' ∧ ∀ e a, pathsAt m' e a = if a = action then none else pathsAt m e a := by
  refine ⟨kept_foldlM hkept h, fun e a => ?_⟩
  rw [(foldlM_applyDeltaAt_ok hkept.held h).2]
  by_cases ha : a = action
  · subst ha
    by_cases he : e ∈ entities
    · rw [if_pos ⟨he, rfl⟩, if_pos rfl, JsMap.get_empty]
    · rw [if_neg fun h => he h.1, if_pos rfl]
      by_contra hne
      exact he (hentities e hne)
  · rw [if_neg fun h => ha h.2, if_neg ha]

theorem add_map (action : Action) (map : JsMap JsString SortedAndCompactPaths) (hkept : Kept m)
    (hnone : ∀ e, pathsAt m e action = none) :
    ∃ m', map.entries.foldlM (setAt action) m = .ok m' ∧ Kept m' ∧
      ∀ e a, pathsAt m' e a = if a = action then map.get e else pathsAt m e a := by
  obtain ⟨m', hm'⟩ := foldlM_applyDeltaAt_total action map map.keys hkept.held
    fun e previous hprevious _ => by rw [hnone] at hprevious; cases hprevious
  refine ⟨m', (foldlM_setAt (fun _ => id) m).trans hm', kept_foldlM hkept hm', fun e a => ?_⟩
  rw [(foldlM_applyDeltaAt_ok hkept.held hm').2]
  by_cases ha : a = action
  · subst ha
    by_cases he : e ∈ map.keys
    · rw [if_pos ⟨he, rfl⟩, if_pos rfl]
    · rw [if_neg fun h => he h.1, if_pos rfl, hnone, get_of_not_mem_keys he]
  · rw [if_neg fun h => ha h.2, if_neg ha]

inductive LogCall (Action : Type) where
  | register (action : Action) (log : ReactivityLog)
  | remove (action : Action)

def noReads : ReactivityLog := ⟨[], []⟩

/-- A registration is by the delta from the log registered before, of no reads at first. -/
def LogCall.apply (identity : ScopeKeyIdentity)
    (s : SchedulerTriggerIndex Action × (Action → ReactivityLog)) :
    LogCall Action → Except EngineError (SchedulerTriggerIndex Action × (Action → ReactivityLog))
  | register action log => do
    let index ← applyActionReadDelta s.1 identity action (s.2 action) log
    .ok (index, Function.update s.2 action log)
  | remove action => do
    let index ← s.1.removeAction action
    .ok (index, Function.update s.2 action noReads)

/-- The index holds the logs registered last. -/
structure RegisteredAs (identity : ScopeKeyIdentity) (index : SchedulerTriggerIndex Action)
    (logs : Action → ReactivityLog) : Prop where
  triggers : Kept index.triggers
  nonRecursiveTriggers : Kept index.nonRecursiveTriggers
  reads : ∀ a, ∃ map, addressesToPathByEntity (logs a).reads identity = .ok map ∧
    ∀ e, pathsAt index.triggers e a = map.get e
  shallowReads : ∀ a, ∃ map, addressesToPathByEntity (logs a).shallowReads identity = .ok map ∧
    ∀ e, pathsAt index.nonRecursiveTriggers e a = map.get e
  entities : ∀ a e,
    pathsAt index.triggers e a ≠ none ∨ pathsAt index.nonRecursiveTriggers e a ≠ none →
    e ∈ (index.actionTriggerEntities a).getD .empty

/-- No document instance has a path twice among the reads of a log, or the shallow reads. -/
def PathsOnce (identity : ScopeKeyIdentity) (log : ReactivityLog) : Prop :=
  ∀ addresses ∈ [log.reads, log.shallowReads], ∀ map,
    addressesToPathByEntity addresses identity = .ok map →
      ∀ e paths, map.get e = some paths → paths.Nodup

/-- Both ways throw the same, or give the same index. -/
def SameOutcome (x y : Except EngineError (SchedulerTriggerIndex Action)) : Prop :=
  (∃ e, x = .error e ∧ y = .error e) ∨ ∃ d r, x = .ok d ∧ y = .ok r ∧ d.Same r

/-- One action's log is replaced, in both maps. -/
theorem registeredAs_update {logs : Action → ReactivityLog} (h : RegisteredAs identity index logs)
    (log : ReactivityLog) {nextNonRecursive : JsMap JsString SortedAndCompactPaths}
    (hnext : addressesToPathByEntity log.reads identity = .ok next)
    (hnextNonRecursive : addressesToPathByEntity log.shallowReads identity = .ok nextNonRecursive)
    {m' : TriggerMap Action} {entities : Option (JsSet JsString)} (hm : Kept m) (hm' : Kept m')
    (hpaths : ∀ e a, pathsAt m e a = if a = action then next.get e else pathsAt index.triggers e a)
    (hpaths' : ∀ e a, pathsAt m' e a =
      if a = action then nextNonRecursive.get e else pathsAt index.nonRecursiveTriggers e a)
    (hentities : ∀ e, next.get e ≠ none ∨ nextNonRecursive.get e ≠ none →
      e ∈ entities.getD .empty) :
    RegisteredAs identity ⟨m, m', Function.update index.actionTriggerEntities action entities⟩
      (Function.update logs action log) := by
  refine ⟨hm, hm', fun a => ?_, fun a => ?_, fun a e he => ?_⟩
  · by_cases ha : a = action
    · subst ha
      rw [Function.update_self]
      exact ⟨next, hnext, fun e => by rw [hpaths, if_pos rfl]⟩
    · rw [Function.update_of_ne ha]
      obtain ⟨map, hmap, hget⟩ := h.reads a
      exact ⟨map, hmap, fun e => by rw [hpaths, if_neg ha, hget]⟩
  · by_cases ha : a = action
    · subst ha
      rw [Function.update_self]
      exact ⟨nextNonRecursive, hnextNonRecursive, fun e => by rw [hpaths', if_pos rfl]⟩
    · rw [Function.update_of_ne ha]
      obtain ⟨map, hmap, hget⟩ := h.shallowReads a
      exact ⟨map, hmap, fun e => by rw [hpaths', if_neg ha, hget]⟩
  · rw [hpaths, hpaths'] at he
    dsimp only
    by_cases ha : a = action
    · subst ha
      rw [if_pos rfl, if_pos rfl] at he
      rw [Function.update_self]
      exact hentities e he
    · rw [if_neg ha, if_neg ha] at he
      rw [Function.update_of_ne ha]
      exact h.entities a e he

theorem removeAction_ok {r : SchedulerTriggerIndex Action} :
    index.removeAction action = .ok r ↔ ∃ m m',
      ((index.actionTriggerEntities action).getD .empty).items.foldlM (applyDeltaAt action .empty)
        index.triggers = .ok m ∧
      ((index.actionTriggerEntities action).getD .empty).items.foldlM (applyDeltaAt action .empty)
        index.nonRecursiveTriggers = .ok m' ∧
      r = ⟨m, m', Function.update index.actionTriggerEntities action none⟩ := by
  rw [SchedulerTriggerIndex.removeAction, Except.bind_ok_iff]
  constructor
  · rintro ⟨⟨m, m'⟩, hfold, hr⟩
    obtain ⟨hm, hm'⟩ := (foldlM_pair_ok (f := applyDeltaAt action .empty)
      (g := applyDeltaAt action .empty)).1 hfold
    exact ⟨m, m', hm, hm', (Except.ok.inj hr).symm⟩
  · rintro ⟨m, m', hm, hm', rfl⟩
    exact ⟨(m, m'), (foldlM_pair_ok (f := applyDeltaAt action .empty)
      (g := applyDeltaAt action .empty)).2 ⟨hm, hm'⟩, rfl⟩

theorem mem_entities {nextNonRecursive : JsMap JsString SortedAndCompactPaths} {e : JsString}
    (h : next.get e ≠ none ∨ nextNonRecursive.get e ≠ none) :
    e ∈ (JsSet.empty.addAll next.keys).addAll nextNonRecursive.keys := by
  rw [JsSet.mem_addAll, JsSet.mem_addAll]
  by_contra hnot
  simp only [not_or] at hnot
  rcases h with h | h
  · exact h (get_of_not_mem_keys hnot.2.1)
  · exact h (get_of_not_mem_keys hnot.1)

theorem registeredAs_apply {s s' : SchedulerTriggerIndex Action × (Action → ReactivityLog)}
    (h : RegisteredAs identity s.1 s.2) {call : LogCall Action}
    (hcall : call.apply identity s = .ok s') : RegisteredAs identity s'.1 s'.2 := by
  cases call with
  | register action log =>
    obtain ⟨index, hdelta, hcall⟩ := Except.bind_ok_iff.1 hcall
    obtain rfl := Except.ok.inj hcall
    rw [applyActionReadDelta] at hdelta
    obtain ⟨prev, hprev, hdelta⟩ := Except.bind_ok_iff.1 hdelta
    obtain ⟨next, hnext, hdelta⟩ := Except.bind_ok_iff.1 hdelta
    obtain ⟨prevNonRecursive, hprevNonRecursive, hdelta⟩ := Except.bind_ok_iff.1 hdelta
    obtain ⟨nextNonRecursive, hnextNonRecursive, hdelta⟩ := Except.bind_ok_iff.1 hdelta
    obtain ⟨m, hm, hdelta⟩ := Except.bind_ok_iff.1 hdelta
    obtain ⟨m', hm', hdelta⟩ := Except.bind_ok_iff.1 hdelta
    obtain rfl := Except.ok.inj hdelta
    obtain ⟨map, hmap, hpaths⟩ := h.reads action
    obtain rfl := Except.ok.inj (hmap.symm.trans hprev)
    obtain ⟨map', hmap', hpaths'⟩ := h.shallowReads action
    obtain rfl := Except.ok.inj (hmap'.symm.trans hprevNonRecursive)
    exact registeredAs_update h log hnext hnextNonRecursive (kept_foldlM h.triggers hm)
      (kept_foldlM h.nonRecursiveTriggers hm')
      (applyActionReadDeltaToMap_ok h.triggers.held hpaths hm).2
      (applyActionReadDeltaToMap_ok h.nonRecursiveTriggers.held hpaths' hm').2
      fun e he => mem_entities he
  | remove action =>
    obtain ⟨index, hremove, hcall⟩ := Except.bind_ok_iff.1 hcall
    obtain rfl := Except.ok.inj hcall
    obtain ⟨m, m', hm, hm', rfl⟩ := removeAction_ok.1 hremove
    obtain ⟨hkept, hpaths⟩ := remove_map h.triggers (fun e he => h.entities action e (.inl he)) hm
    obtain ⟨hkept', hpaths'⟩ :=
      remove_map h.nonRecursiveTriggers (fun e he => h.entities action e (.inr he)) hm'
    exact registeredAs_update h noReads rfl rfl hkept hkept' hpaths hpaths'
      fun e he => by simp at he

theorem registeredAs_run {calls : List (LogCall Action)}
    {s s' : SchedulerTriggerIndex Action × (Action → ReactivityLog)}
    (h : RegisteredAs identity s.1 s.2) (hrun : calls.foldlM (LogCall.apply identity) s = .ok s') :
    RegisteredAs identity s'.1 s'.2 := by
  induction calls generalizing s with
  | nil =>
    obtain rfl := Except.ok.inj hrun
    exact h
  | cons call calls ih =>
    obtain ⟨s₁, hone, hrest⟩ := List.foldlM_cons_ok.1 hrun
    exact ih (registeredAs_apply h hone) hrest

theorem registeredAs_empty (identity : ScopeKeyIdentity) :
    RegisteredAs identity (.empty : SchedulerTriggerIndex Action) fun _ => noReads :=
  ⟨kept_none, kept_none, fun _ => ⟨.empty, rfl, fun _ => rfl⟩, fun _ => ⟨.empty, rfl, fun _ => rfl⟩,
    fun _ _ h => by simp [SchedulerTriggerIndex.empty, pathsAt] at h⟩

/-- The delta does what removing the action and adding the next log does. -/
theorem delta_eq_remove_add {logs : Action → ReactivityLog} (h : RegisteredAs identity index logs)
    (honce : PathsOnce identity (logs action)) (nextLog : ReactivityLog) :
    SameOutcome (applyActionReadDelta index identity action (logs action) nextLog) (do
      let removed ← index.removeAction action
      removed.addActionReads identity action nextLog.reads nextLog.shallowReads) := by
  obtain ⟨prev, hprev, hpaths⟩ := h.reads action
  obtain ⟨prev', hprev', hpaths'⟩ := h.shallowReads action
  have hreads := honce _ List.mem_cons_self prev hprev
  have hshallow := honce _ (List.mem_cons_of_mem _ List.mem_cons_self) prev' hprev'
  obtain ⟨m, hm⟩ := foldlM_applyDeltaAt_total action .empty
    ((index.actionTriggerEntities action).getD .empty).items h.triggers.held
    fun e previous hprevious _ => hreads e previous (by rw [← hpaths, hprevious])
  obtain ⟨m', hm'⟩ := foldlM_applyDeltaAt_total action .empty
    ((index.actionTriggerEntities action).getD .empty).items h.nonRecursiveTriggers.held
    fun e previous hprevious _ => hshallow e previous (by rw [← hpaths', hprevious])
  obtain ⟨hkept, hremoved⟩ := remove_map h.triggers (fun e he => h.entities action e (.inl he)) hm
  obtain ⟨hkept', hremoved'⟩ :=
    remove_map h.nonRecursiveTriggers (fun e he => h.entities action e (.inr he)) hm'
  rw [removeAction_ok.2 ⟨m, m', hm, hm', rfl⟩, Except.ok_bind, applyActionReadDelta,
    SchedulerTriggerIndex.addActionReads, hprev, hprev', Except.ok_bind]
  cases hnext : addressesToPathByEntity nextLog.reads identity with
  | error e => exact .inl ⟨e, rfl, rfl⟩
  | ok next =>
    cases hnext' : addressesToPathByEntity nextLog.shallowReads identity with
    | error e => exact .inl ⟨e, rfl, rfl⟩
    | ok next' =>
      obtain ⟨d, hd, hdkept, hdpaths⟩ := delta_map next h.triggers hpaths hreads
      obtain ⟨d', hd', hdkept', hdpaths'⟩ := delta_map next' h.nonRecursiveTriggers hpaths' hshallow
      obtain ⟨r, hr, hrkept, hrpaths⟩ := add_map action next hkept
        fun e => by rw [hremoved, if_pos rfl]
      obtain ⟨r', hr', hrkept', hrpaths'⟩ := add_map action next' hkept'
        fun e => by rw [hremoved', if_pos rfl]
      refine .inr ⟨⟨d, d', Function.update index.actionTriggerEntities action
          (some ((JsSet.empty.addAll next.keys).addAll next'.keys))⟩,
        ⟨r, r', Function.update (Function.update index.actionTriggerEntities action none) action
          (some ((JsSet.empty.addAll next.keys).addAll next'.keys))⟩, ?_, ?_,
        ⟨sameTriggers_of_kept hdkept hrkept fun e a => ?_,
          sameTriggers_of_kept hdkept' hrkept' fun e a => ?_, ?_⟩⟩
      · simp only [Except.ok_bind]
        rw [hd, Except.ok_bind, hd', Except.ok_bind]
      · simp only [Except.ok_bind]
        rw [hr, Except.ok_bind, hr', Except.ok_bind]
      · rw [hdpaths, hrpaths, hremoved]
        split <;> rfl
      · rw [hdpaths', hrpaths', hremoved']
        split <;> rfl
      · exact (Function.update_idem _ _ _).symm

/-- Where no list that is taken out has a path twice, the trie answers as a scan of what is
registered, and the delta from the log registered last gives the index that removing the
action and registering the next log gives. -/
theorem triggers_of_runs (identity : ScopeKeyIdentity) (calls : List (TriggerCall Action))
    (hcalls : TriggerCall.EachTakesOutOnce (fun _ => none) calls) (logCalls : List (LogCall Action))
    (index : SchedulerTriggerIndex Action) (logs : Action → ReactivityLog)
    (hrun : logCalls.foldlM (LogCall.apply identity) (.empty, fun _ => noReads) = .ok (index, logs))
    (action : Action) (honce : PathsOnce identity (logs action)) (nextLog : ReactivityLog) :
    (∃ t, calls.foldlM TriggerCall.apply .empty = .ok t ∧
      EqualsScan (calls.foldl TriggerCall.record fun _ => none) t) ∧
    SameOutcome (applyActionReadDelta index identity action (logs action) nextLog) (do
      let removed ← index.removeAction action
      removed.addActionReads identity action nextLog.reads nextLog.shallowReads) := by
  constructor
  · obtain ⟨t, hrun, hholds, hget⟩ := TriggerCall.run_total EntityTriggers.holds_empty hcalls
    have hscan := hholds.equalsScan
    rw [hget] at hscan
    exact ⟨t, hrun, hscan⟩
  · exact delta_eq_remove_add (registeredAs_run (registeredAs_empty identity) hrun) honce nextLog

end

/-- What keeps the reads of a log apart: the key of the instance, or else the scope's name. -/
def instanceOf (address : IMemorySpaceAddress) : JsString :=
  address.scopeKey.getD (scopeName (normalizeCellScope address.scope))

def groupsOf (unsorted : List IMemorySpaceAddress) : JsMap JsString (List IMemorySpaceAddress) :=
  unsorted.foldl (fun groups address =>
    let key := JsString.concat [address.space, ("\x00" : JsString), address.id, ("\x00" : JsString),
      instanceOf address]
    groups.set key ((groups.get key).getD [] ++ [address])) .empty

/-- The order of two groups, by their first addresses. -/
def groupBefore : List IMemorySpaceAddress → List IMemorySpaceAddress → Bool
  | a :: _, b :: _ =>
    if a.space ≠ b.space then a.space.lt b.space
    else if a.id ≠ b.id then a.id.lt b.id
    else (instanceOf a).lt (instanceOf b)
  | _, _ => false

/-- A sorted group without the paths equal to the one kept before, or below it. -/
def compactGroup (compactifyChildren : Bool) :
    Option IMemorySpaceAddress → List IMemorySpaceAddress → List IMemorySpaceAddress
  | _, [] => []
  | none, address :: rest => address :: compactGroup compactifyChildren (some address) rest
  | some previous, address :: rest =>
    if previous.path.isPrefixOf address.path &&
        (compactifyChildren || previous.path.length = address.path.length) then
      compactGroup compactifyChildren (some previous) rest
    else address :: compactGroup compactifyChildren (some address) rest

def sortAndCompactPaths (unsorted : List IMemorySpaceAddress) (compactifyChildren : Bool) :
    List IMemorySpaceAddress :=
  ((groupsOf unsorted).values.insertionSort fun a b => groupBefore b a = false).flatMap fun group =>
    compactGroup compactifyChildren none
      (group.insertionSort fun a b => comparePaths a.path b.path ≤ 0)

/-- A read that names its instance, and one that names the scope it resolves from. -/
def twiceRead : List IMemorySpaceAddress :=
  [⟨"did:key:home", "of:draft", some .user, some "user:did%3Akey%3Aalice", ["value"]⟩,
    ⟨"did:key:home", "of:draft", some .user, none, ["value"]⟩]

/-- The log keeps both, and its grouping puts them under one key. -/
theorem grouped_twiceRead (compactifyChildren : Bool) :
    (addressesToPathByEntity (sortAndCompactPaths twiceRead compactifyChildren) aliceIdentity).map
      (fun map => map.values) = .ok [[["value"], ["value"]]] := by
  cases compactifyChildren <;> decide +kernel

/-- The list of such a log cannot be taken out again. -/
theorem triggers_twice :
    ¬∀ calls : List (TriggerCall Nat), ∃ t, calls.foldlM TriggerCall.apply .empty = .ok t ∧
      EqualsScan (calls.foldl TriggerCall.record fun _ => none) t := by
  intro h
  obtain ⟨t, hrun, _⟩ := h [.set 0 [["value"], ["value"]], .delete 0]
  have hthrows : ([TriggerCall.set 0 [["value"], ["value"]], .delete 0].foldlM TriggerCall.apply
      (.empty : EntityTriggers Nat)).toOption.isSome = false := by decide +kernel
  rw [hrun] at hthrows
  cases hthrows

/-- The log of a run that read two documents, the first by its length too. -/
def notedLog : ReactivityLog :=
  ⟨[⟨"did:key:home", "of:draft", some .user, none, ["value", "title"]⟩,
      ⟨"did:key:home", "of:note", none, none, ["value"]⟩],
    [⟨"did:key:home", "of:draft", some .user, none, ["value"]⟩]⟩

/-- Two actions read the same documents; the first reads others of them in the end. -/
def userLogs : List (LogCall Nat) :=
  [.register 0 (userLog none), .register 1 notedLog, .register 0 notedLog]

theorem triggers_of_runs_user :
    ∃ index logs, userLogs.foldlM (LogCall.apply aliceIdentity) (.empty, fun _ => noReads) =
        .ok (index, logs) ∧ logs 0 = notedLog ∧
      (∃ t, [TriggerCall.set 0 [["value"]], .set 1 [["value", "title"]], .delete 0].foldlM
          TriggerCall.apply (.empty : EntityTriggers Nat) = .ok t ∧
        EqualsScan ([TriggerCall.set 0 [["value"]], .set 1 [["value", "title"]], .delete 0].foldl
          TriggerCall.record fun _ => none) t) ∧
      SameOutcome (applyActionReadDelta index aliceIdentity 0 (logs 0) (userLog none)) (do
        let removed ← index.removeAction 0
        removed.addActionReads aliceIdentity 0 (userLog none).reads (userLog none).shallowReads) := by
  have hfacts : (userLogs.foldlM (LogCall.apply aliceIdentity)
        (.empty, fun _ => noReads)).toOption.map (fun s => s.2 0) = some notedLog ∧
      ∀ addresses ∈ [notedLog.reads, notedLog.shallowReads],
        ∀ map ∈ (addressesToPathByEntity addresses aliceIdentity).toOption,
          ∀ entry ∈ map.entries, entry.2.Nodup := by decide +kernel
  obtain ⟨hlogs, hnodup⟩ := hfacts
  cases hrun : userLogs.foldlM (LogCall.apply aliceIdentity) (.empty, fun _ => noReads) with
  | error e =>
    rw [hrun] at hlogs
    cases hlogs
  | ok s =>
    obtain ⟨index, logs⟩ := s
    rw [hrun] at hlogs
    have hlog : logs 0 = notedLog := Option.some.inj hlogs
    refine ⟨index, logs, rfl, hlog,
      triggers_of_runs aliceIdentity _ ?_ userLogs index logs hrun 0 ?_ (userLog none)⟩
    · refine ⟨fun previous h => ?_, fun previous h => ?_, fun previous h => ?_, trivial⟩
      · cases h
      · cases h
      · obtain rfl := Option.some.inj h
        exact List.nodup_singleton _
    · rw [hlog]
      intro addresses haddresses map hmap e paths hget
      have hmem : map ∈ (addressesToPathByEntity addresses aliceIdentity).toOption := by
        rw [hmap]
        rfl
      exact hnodup addresses haddresses map hmem _ (JsMap.mem_of_get hget)

end Scheduler
