import CommonFabric.ModuleIdentity

/-!
# A module's identity names its import closure

Where the hash has no collision, equal hashes are of modules that agree, with what they import, all
through the graph: a hash gives its unit's entries back, and these name the members, their texts,
their external specifiers and the hashes or the names that their imports lead to.
-/

namespace ModuleIdentity

variable {hashStringOf : FabricValue → JsString} {reader : ModuleReader}
  {program program' : Program} {options options' : ModuleIdentityOptions}
  {nodes nodes' : JsMap JsString ModuleNode}

/-- The values that are hashed for the modules of a graph. -/
def hashedValues (hashStringOf : FabricValue → JsString) (options : ModuleIdentityOptions)
    (nodes : JsMap JsString ModuleNode) : List FabricValue :=
  (tarjanSccs nodes).components.flatMap fun component =>
    componentValue ((condensation options nodes).entries (hashNodes hashStringOf options nodes)
      component) ::
    component.map (moduleValue ((condensation options nodes).componentHash hashStringOf
      (hashNodes hashStringOf options nodes) component))

theorem arrayOf_injective {α : Type} {f : α → FabricValue} (hf : Function.Injective f)
    {xs ys : List α} (h : arrayOf (xs.map f) = arrayOf (ys.map f)) : xs = ys := by
  rw [arrayOf, arrayOf, FabricValue.array.injEq, List.map_map, List.map_map] at h
  exact List.map_injective_iff.2 (fun a b hab => hf (Option.some.inj hab)) h

theorem ExternalLeaf.toValue_injective : Function.Injective ExternalLeaf.toValue := by
  intro a b h
  simp only [ExternalLeaf.toValue, FabricValue.record.injEq, List.cons.injEq, Prod.mk.injEq,
    FabricValue.string.injEq, true_and, and_true] at h
  cases a
  cases b
  simp only [ExternalLeaf.mk.injEq]
  exact h

theorem CrossDep.toValue_injective : Function.Injective CrossDep.toValue := by
  intro a b h
  simp only [CrossDep.toValue, FabricValue.record.injEq, List.cons.injEq, Prod.mk.injEq,
    FabricValue.string.injEq, true_and, and_true] at h
  obtain ⟨specifier, hash⟩ := a
  obtain ⟨specifier', hash'⟩ := b
  obtain ⟨rfl, hhash⟩ := h
  cases hash with
  | none =>
    cases hash' with
    | none => rfl
    | some hash' => cases hhash
  | some hash =>
    cases hash' with
    | none => cases hhash
    | some hash' =>
      cases hhash
      rfl

theorem intraDepValue_injective : Function.Injective intraDepValue := by
  intro a b h
  simp only [intraDepValue, FabricValue.record.injEq, List.cons.injEq, Prod.mk.injEq,
    FabricValue.string.injEq, true_and, and_true] at h
  cases a
  cases b
  simp only [ModuleDep.mk.injEq]
  exact h

theorem MemberEntry.toValue_injective : Function.Injective MemberEntry.toValue := by
  intro a b h
  simp only [MemberEntry.toValue, FabricValue.record.injEq, List.cons.injEq, Prod.mk.injEq,
    FabricValue.string.injEq, true_and, and_true] at h
  obtain ⟨hpath, hsrc, hexternal, hcross, hintra⟩ := h
  cases a
  cases b
  simp only [MemberEntry.mk.injEq]
  exact ⟨hpath, hsrc, arrayOf_injective ExternalLeaf.toValue_injective hexternal,
    arrayOf_injective CrossDep.toValue_injective hcross,
    arrayOf_injective intraDepValue_injective hintra⟩

theorem componentValue_injective {entries entries' : List MemberEntry}
    (h : componentValue entries = componentValue entries') : entries = entries' := by
  simp only [componentValue, FabricValue.record.injEq, List.cons.injEq, Prod.mk.injEq, true_and,
    and_true] at h
  exact arrayOf_injective MemberEntry.toValue_injective h

theorem moduleValue_injective {hash hash' path path' : JsString}
    (h : moduleValue hash path = moduleValue hash' path') : hash = hash' ∧ path = path' := by
  simpa [moduleValue, arrayOf] using h

/-- Two modules agree, and their edges lead to related ones. -/
structure SameModule (related : JsString → JsString → Prop) (node node' : ModuleNode) : Prop where
  path : node.path = node'.path
  src : node.src = node'.src
  external : ∀ specifier, specifier ∈ node.externalDeps ↔ specifier ∈ node'.externalDeps
  forth : ∀ dep ∈ node.internalDeps, ∃ dep' ∈ node'.internalDeps,
    dep'.specifier = dep.specifier ∧ related dep.target dep'.target
  back : ∀ dep' ∈ node'.internalDeps, ∃ dep ∈ node.internalDeps,
    dep.specifier = dep'.specifier ∧ related dep.target dep'.target

/-- Two modules have one hash. -/
def SameHash (hashStringOf : FabricValue → JsString) (options options' : ModuleIdentityOptions)
    (nodes nodes' : JsMap JsString ModuleNode) (path path' : JsString) : Prop :=
  ∃ hash, (hashNodes hashStringOf options nodes).get path = some hash ∧
    (hashNodes hashStringOf options' nodes').get path' = some hash

theorem SameHash.symm {path path' : JsString}
    (h : SameHash hashStringOf options options' nodes nodes' path path') :
    SameHash hashStringOf options' options nodes' nodes path' path := by
  obtain ⟨hash, hget, hget'⟩ := h
  exact ⟨hash, hget', hget⟩

/-- No two of the values hashed for two graphs have one hash. -/
def CollisionFree (hashStringOf : FabricValue → JsString) (options options' : ModuleIdentityOptions)
    (nodes nodes' : JsMap JsString ModuleNode) : Prop :=
  Set.InjOn hashStringOf {value | value ∈ hashedValues hashStringOf options nodes ∨
    value ∈ hashedValues hashStringOf options' nodes'}

theorem hashed_unit {component : List JsString}
    (h : component ∈ (tarjanSccs nodes).components) :
    componentValue ((condensation options nodes).entries (hashNodes hashStringOf options nodes)
      component) ∈ hashedValues hashStringOf options nodes ∧
    ∀ path ∈ component, moduleValue ((condensation options nodes).componentHash hashStringOf
      (hashNodes hashStringOf options nodes) component) path ∈
        hashedValues hashStringOf options nodes := by
  constructor
  · exact List.mem_flatMap.2 ⟨component, h, List.mem_cons_self⟩
  · intro path hpath
    exact List.mem_flatMap.2 ⟨component, h, List.mem_cons_of_mem _ (List.mem_map_of_mem hpath)⟩

/-- A module that has a hash is in a unit. -/
theorem Closed.unit_of_hash (h : Closed nodes) {path hash : JsString}
    (hget : (hashNodes hashStringOf options nodes).get path = some hash) :
    ∃ (k : Nat) (component : List JsString),
      (tarjanSccs nodes).components[k]? = some component ∧ path ∈ component := by
  cases hnode : nodes.get path with
  | none =>
    rw [h.get_hashNodes_none hnode] at hget
    cases hget
  | some node =>
    have hkeys := h.mem_components.2 (mem_keys_iff.2 ⟨node, hnode⟩)
    obtain ⟨component, hcomponent, hmem⟩ := List.mem_flatten.1 hkeys
    obtain ⟨k, hk⟩ := List.mem_iff_getElem?.1 hcomponent
    exact ⟨k, component, hk, hmem⟩

/-- Two units with the same entries. -/
structure SameUnit (hashStringOf : FabricValue → JsString) (options options' : ModuleIdentityOptions)
    (nodes nodes' : JsMap JsString ModuleNode) (path : JsString) (k k' : Nat)
    (component component' : List JsString) : Prop where
  unit : (tarjanSccs nodes).components[k]? = some component
  unit' : (tarjanSccs nodes').components[k']? = some component'
  mem : path ∈ component
  mem' : path ∈ component'
  hash : (condensation options nodes).componentHash hashStringOf
      (hashNodes hashStringOf options nodes) component =
    (condensation options' nodes').componentHash hashStringOf
      (hashNodes hashStringOf options' nodes') component'
  entries : (condensation options nodes).entries (hashNodes hashStringOf options nodes) component =
    (condensation options' nodes').entries (hashNodes hashStringOf options' nodes') component'

theorem SameHash.unit {path path' : JsString}
    (h : SameHash hashStringOf options options' nodes nodes' path path') (hclosed : Closed nodes)
    (hclosed' : Closed nodes')
    (hfree : CollisionFree hashStringOf options options' nodes nodes') :
    path = path' ∧ ∃ k k' component component',
      SameUnit hashStringOf options options' nodes nodes' path k k' component component' := by
  obtain ⟨hash, hget, hget'⟩ := h
  obtain ⟨k, component, hk, hmem⟩ := hclosed.unit_of_hash hget
  obtain ⟨k', component', hk', hmem'⟩ := hclosed'.unit_of_hash hget'
  have hcomponent := List.mem_of_getElem? hk
  have hcomponent' := List.mem_of_getElem? hk'
  rw [hclosed.get_hashNodes hcomponent hmem] at hget
  rw [hclosed'.get_hashNodes hcomponent' hmem'] at hget'
  have hmodule := hfree (.inl ((hashed_unit hcomponent).2 path hmem))
    (.inr ((hashed_unit hcomponent').2 path' hmem'))
    ((Option.some.inj hget).trans (Option.some.inj hget').symm)
  obtain ⟨hhash, hpath⟩ := moduleValue_injective hmodule
  have hvalue := hfree (.inl (hashed_unit hcomponent).1) (.inr (hashed_unit hcomponent').1) hhash
  refine ⟨hpath, k, k', component, component', hk, hk', hmem, ?_, hhash,
    componentValue_injective hvalue⟩
  rw [hpath]
  exact hmem'

namespace SameUnit

variable {path : JsString} {k k' : Nat} {component component' : List JsString}

section

variable (h : SameUnit hashStringOf options options' nodes nodes' path k k' component component')
include h

theorem members : sortStrings component = sortStrings component' := by
  have hpaths := congrArg (List.map MemberEntry.path) h.entries
  rw [Condensation.entries, Condensation.entries, List.map_map, List.map_map] at hpaths
  exact (List.map_id _).symm.trans (hpaths.trans (List.map_id _))

theorem mem_iff (other : JsString) : other ∈ component ↔ other ∈ component' := by
  rw [← mem_sortStrings, h.members, mem_sortStrings]

/-- The module's own entries are the same. -/
theorem entry {node node' : ModuleNode} (hnode : nodes.get path = some node)
    (hnode' : nodes'.get path = some node') :
    memberEntry (options.runtimeFingerprint.getD "") (tarjanSccs nodes).componentOf
        (hashNodes hashStringOf options nodes) path node =
      memberEntry (options'.runtimeFingerprint.getD "") (tarjanSccs nodes').componentOf
        (hashNodes hashStringOf options' nodes') path node' := by
  have hentries := h.entries
  rw [Condensation.entries, Condensation.entries, ← h.members, List.map_inj_left] at hentries
  have hentry := hentries path (mem_sortStrings.2 h.mem)
  rw [show (condensation options nodes).nodes.get path = some node from hnode,
    show (condensation options' nodes').nodes.get path = some node' from hnode'] at hentry
  exact hentry

/-- Members of the two units have one hash. -/
theorem sameHash (hclosed : Closed nodes) (hclosed' : Closed nodes') {other : JsString}
    (hother : other ∈ component) :
    SameHash hashStringOf options options' nodes nodes' other other := by
  refine ⟨_, hclosed.get_hashNodes (List.mem_of_getElem? h.unit) hother, ?_⟩
  rw [hclosed'.get_hashNodes (List.mem_of_getElem? h.unit') ((h.mem_iff other).1 hother),
    Condensation.moduleHash, Condensation.moduleHash, h.hash]

theorem forth (hclosed : Closed nodes) (hclosed' : Closed nodes') {node node' : ModuleNode}
    (hnode : nodes.get path = some node) (hnode' : nodes'.get path = some node') {dep : ModuleDep}
    (hdep : dep ∈ node.internalDeps) :
    ∃ dep' ∈ node'.internalDeps, dep'.specifier = dep.specifier ∧
      SameHash hashStringOf options options' nodes nodes' dep.target dep'.target := by
  have hentry := h.entry hnode hnode'
  have htarget : dep.target ∈ targets nodes path := by
    rw [targets, hnode]
    exact List.mem_map_of_mem hdep
  by_cases hin : dep.target ∈ component
  · have hintra := congrArg (fun entry => dep ∈ entry.intraDeps) hentry
    simp only [memberEntry, List.mem_insertionSort, List.mem_filter, decide_eq_true_eq,
      eq_iff_iff] at hintra
    obtain ⟨hdep', -⟩ := hintra.1 ⟨hdep, (hclosed.same_unit h.unit h.mem).2 hin⟩
    exact ⟨dep, hdep', rfl, h.sameHash hclosed hclosed' hin⟩
  · have hcross := congrArg (fun entry => (⟨dep.specifier,
      (hashNodes hashStringOf options nodes).get dep.target⟩ : CrossDep) ∈ entry.crossDeps) hentry
    simp only [memberEntry, List.mem_insertionSort, List.mem_map, List.mem_filter,
      decide_eq_true_eq, eq_iff_iff, CrossDep.mk.injEq] at hcross
    obtain ⟨dep', ⟨hdep', -⟩, hspecifier, hhash⟩ := hcross.1
      ⟨dep, ⟨hdep, fun hsame => hin ((hclosed.same_unit h.unit h.mem).1 hsame)⟩, rfl, rfl⟩
    have hkeys := hclosed path (mem_keys_iff.2 ⟨node, hnode⟩) dep.target htarget
    obtain ⟨other, hother, hmem⟩ := List.mem_flatten.1 (hclosed.mem_components.2 hkeys)
    have hsome := @Closed.get_hashNodes hashStringOf options nodes _ _ hclosed hother hmem
    exact ⟨dep', hdep', hspecifier, _, hsome, hhash.trans hsome⟩

theorem symm : SameUnit hashStringOf options' options nodes' nodes path k' k component'
      component :=
  ⟨h.unit', h.unit, h.mem', h.mem, h.hash.symm, h.entries.symm⟩

end

end SameUnit

/-- Modules that have one hash agree, and their edges lead to modules that have one. -/
theorem SameHash.same {path path' : JsString}
    (h : SameHash hashStringOf options options' nodes nodes' path path') (hclosed : Closed nodes)
    (hclosed' : Closed nodes')
    (hfree : CollisionFree hashStringOf options options' nodes nodes')
    (hpaths : ∀ path node, nodes.get path = some node → node.path = path)
    (hpaths' : ∀ path node, nodes'.get path = some node → node.path = path) :
    ∃ node node', nodes.get path = some node ∧ nodes'.get path' = some node' ∧
      SameModule (SameHash hashStringOf options options' nodes nodes') node node' := by
  obtain ⟨rfl, k, k', component, component', hunit⟩ := h.unit hclosed hclosed' hfree
  obtain ⟨node, hnode⟩ := mem_keys_iff.1 (hclosed.mem_components.1
    (List.mem_flatten.2 ⟨component, List.mem_of_getElem? hunit.unit, hunit.mem⟩))
  obtain ⟨node', hnode'⟩ := mem_keys_iff.1 (hclosed'.mem_components.1
    (List.mem_flatten.2 ⟨component', List.mem_of_getElem? hunit.unit', hunit.mem'⟩))
  have hentry := hunit.entry hnode hnode'
  refine ⟨node, node', hnode, hnode', ?_, ?_, fun specifier => ?_, ?_, ?_⟩
  · rw [hpaths path node hnode, hpaths' path node' hnode']
  · exact congrArg MemberEntry.src hentry
  · have hexternal := congrArg (fun entry => (entry.external.map ExternalLeaf.specifier)) hentry
    simp only [memberEntry, List.map_map] at hexternal
    have hsorted : sortStrings (unique node.externalDeps) =
        sortStrings (unique node'.externalDeps) :=
      (List.map_id _).symm.trans (hexternal.trans (List.map_id _))
    have hmem : ∀ values : List JsString, specifier ∈ sortStrings (unique values) ↔
        specifier ∈ values := fun values => by
      rw [mem_sortStrings, unique, JsSet.mem_items, JsSet.mem_addAll]
      simp
    rw [← hmem, hsorted, hmem]
  · exact fun dep hdep => hunit.forth hclosed hclosed' hnode hnode' hdep
  · intro dep' hdep'
    obtain ⟨dep, hdep, hspecifier, hhash⟩ :=
      hunit.symm.forth hclosed' hclosed hnode' hnode hdep'
    exact ⟨dep, hdep, hspecifier, hhash.symm⟩

theorem Nodes.path (h : Nodes reader program options nodes) {path : JsString} {node : ModuleNode}
    (hget : nodes.get path = some node) : node.path = path := by
  obtain ⟨file, -, hname, rfl⟩ := (h.get path node).1 hget
  exact hname

/-- No two of the values hashed for two programs have one hash. -/
def NoCollision (hashStringOf : FabricValue → JsString) (reader : ModuleReader)
    (options options' : ModuleIdentityOptions) (program program' : Program) : Prop :=
  ∀ nodes nodes', moduleNodes reader program options = .ok nodes →
    moduleNodes reader program' options' = .ok nodes' →
      CollisionFree hashStringOf options options' nodes nodes'

end ModuleIdentity
