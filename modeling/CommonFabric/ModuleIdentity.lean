import CommonFabric.ModuleHashes

/-!
# A module's identity follows its import closure

A module's hash is one function of its unit and of the hashes that its unit's members import, so
it follows the files that the module reaches and no others.
-/

namespace ModuleIdentity

variable {hashStringOf : FabricValue → JsString} {reader : ModuleReader}
  {program program' : Program} {options options' : ModuleIdentityOptions}
  {nodes nodes' : JsMap JsString ModuleNode}

/-- Every edge of the nodes leads to a node. -/
def Closed (nodes : JsMap JsString ModuleNode) : Prop :=
  ∀ path ∈ nodes.keys, ∀ target ∈ targets nodes path, target ∈ nodes.keys

theorem Closed.condensed (h : Closed nodes) : (tarjanSccs nodes).Condensed (targets nodes) :=
  (Tarjan.condensed_sccs h).1

variable {path : JsString} {component : List JsString} {result : JsMap JsString JsString}

theorem Closed.mem_components (h : Closed nodes) :
    path ∈ (tarjanSccs nodes).components.flatten ↔ path ∈ nodes.keys :=
  (Tarjan.condensed_sccs h).2 path

/-- Two paths have one unit exactly where the second is in the first's. -/
theorem Closed.same_unit (h : Closed nodes) {k : Nat}
    (hk : (tarjanSccs nodes).components[k]? = some component) {path' : JsString}
    (hpath : path ∈ component) :
    (tarjanSccs nodes).componentOf.get path' = (tarjanSccs nodes).componentOf.get path ↔
      path' ∈ component := by
  have hunit := (h.condensed.componentOf path k).2 ⟨component, hk, hpath⟩
  rw [hunit, h.condensed.componentOf]
  constructor
  · rintro ⟨other, hother, hmem⟩
    rw [hk, Option.some_inj] at hother
    exact hother ▸ hmem
  · exact fun hmem => ⟨component, hk, hmem⟩

/-- What a unit's members import is in it or in one before. -/
theorem Closed.target_unit (h : Closed nodes) {k : Nat}
    (hk : (tarjanSccs nodes).components[k]? = some component) {target : JsString}
    (hpath : path ∈ component) (htarget : target ∈ targets nodes path) :
    target ∈ component ∨ ∃ j < k, ∃ other, (tarjanSccs nodes).components[j]? = some other ∧
      target ∈ other := by
  have htake : (tarjanSccs nodes).components.take (k + 1) =
      (tarjanSccs nodes).components.take k ++ [component] := by
    rw [List.take_add_one, hk]
    rfl
  have hfirst := h.condensed.first (k + 1) path
  rw [htake, List.flatten_append, List.flatten_singleton] at hfirst
  have hmem := hfirst (List.mem_append_right _ hpath) target htarget
  cases List.mem_append.1 hmem with
  | inr hunit => exact .inl hunit
  | inl hbefore =>
    obtain ⟨other, hother, hin⟩ := List.mem_flatten.1 hbefore
    obtain ⟨j, hj⟩ := List.mem_iff_getElem?.1 hother
    rw [List.getElem?_take] at hj
    split at hj
    · rename_i hlt
      exact .inr ⟨j, hlt, other, hj, hin⟩
    · cases hj

theorem mem_sortStrings {values : List JsString} {value : JsString} :
    value ∈ sortStrings values ↔ value ∈ values := List.mem_insertionSort _

theorem foldl_set_get {m : JsMap JsString JsString} {paths : List JsString}
    {f : JsString → JsString} :
    (paths.foldl (fun m path => m.set path (f path)) m).get path =
      if path ∈ paths then some (f path) else m.get path := by
  induction paths generalizing m with
  | nil => rfl
  | cons first rest ih =>
    rw [List.foldl_cons, ih, JsMap.get_set]
    by_cases hrest : path ∈ rest
    · rw [if_pos hrest, if_pos (List.mem_cons_of_mem _ hrest)]
    · rw [if_neg hrest]
      by_cases hfirst : first = path
      · rw [if_pos hfirst, if_pos (hfirst ▸ List.mem_cons_self), hfirst]
      · rw [if_neg hfirst, if_neg]
        rw [List.mem_cons, not_or]
        exact ⟨Ne.symm hfirst, hrest⟩

/-- The hash of a member of a unit. -/
def Condensation.moduleHash (g : Condensation) (hashStringOf : FabricValue → JsString)
    (result : JsMap JsString JsString) (component : List JsString) (path : JsString) : JsString :=
  hashStringOf (moduleValue (g.componentHash hashStringOf result component) path)

theorem get_hashComponent {g : Condensation} :
    (g.hashComponent hashStringOf result component).get path =
      if path ∈ component then some (g.moduleHash hashStringOf result component path)
      else result.get path := by
  rw [Condensation.hashComponent, foldl_set_get]
  simp only [mem_sortStrings]
  rfl

theorem get_foldl_of_not_mem {g : Condensation} {components : List (List JsString)}
    (h : path ∉ components.flatten) :
    (components.foldl (g.hashComponent hashStringOf) result).get path = result.get path := by
  induction components generalizing result with
  | nil => rfl
  | cons component components ih =>
    rw [List.flatten_cons, List.mem_append, not_or] at h
    rw [List.foldl_cons, ih h.2, get_hashComponent, if_neg h.1]

/-- The entries of a unit read the results at what its members import outside it. -/
theorem entries_congr {g : Condensation} {result' : JsMap JsString JsString}
    (h : ∀ path ∈ component, ∀ target ∈ targets g.nodes path,
      g.componentOf.get target ≠ g.componentOf.get path → result.get target = result'.get target) :
    g.entries result component = g.entries result' component := by
  apply List.map_congr_left
  intro path hpath
  rw [mem_sortStrings] at hpath
  rw [memberEntry, memberEntry]
  congr 2
  apply List.map_congr_left
  intro dep hdep
  rw [List.mem_filter, decide_eq_true_eq] at hdep
  rw [h path hpath dep.target _ hdep.2]
  rw [targets]
  cases hnode : g.nodes.get path with
  | none =>
    rw [hnode] at hdep
    exact (List.not_mem_nil hdep.1).elim
  | some node =>
    rw [hnode] at hdep
    exact List.mem_map_of_mem hdep.1

/-- A module's hash is of the final results of what its unit imports. -/
theorem Closed.get_hashNodes (h : Closed nodes)
    (hcomponent : component ∈ (tarjanSccs nodes).components) (hpath : path ∈ component) :
    (hashNodes hashStringOf options nodes).get path =
      some ((condensation options nodes).moduleHash hashStringOf
        (hashNodes hashStringOf options nodes) component path) := by
  obtain ⟨before, after, hsplit⟩ := List.append_of_mem hcomponent
  have hk : (tarjanSccs nodes).components[before.length]? = some component := by
    rw [hsplit, List.getElem?_append_right (Nat.le_refl _), Nat.sub_self]
    rfl
  have hnodup := h.condensed.nodup
  rw [hsplit, List.flatten_append, List.flatten_cons] at hnodup
  have hresult : hashNodes hashStringOf options nodes =
      (component :: after).foldl ((condensation options nodes).hashComponent hashStringOf)
        (before.foldl ((condensation options nodes).hashComponent hashStringOf) .empty) := by
    rw [hashNodes, hsplit, List.foldl_append]
  have hafter : path ∉ after.flatten := fun hmem =>
    (List.disjoint_of_nodup_append (List.nodup_append.1 hnodup).2.1) hpath hmem
  have hentries : (condensation options nodes).entries
      (before.foldl ((condensation options nodes).hashComponent hashStringOf) .empty) component =
      (condensation options nodes).entries (hashNodes hashStringOf options nodes) component := by
    apply entries_congr
    intro member hmember target htarget hcross
    have hout : target ∉ component := fun hin => hcross ((h.same_unit hk hmember).2 hin)
    have hbefore : target ∈ before.flatten := by
      obtain ⟨j, hj, other, hother, hin⟩ := (h.target_unit hk hmember htarget).resolve_left hout
      rw [hsplit, List.getElem?_append_left hj] at hother
      exact List.mem_flatten.2 ⟨other, List.mem_of_getElem? hother, hin⟩
    rw [hresult]
    refine (get_foldl_of_not_mem fun hlater => ?_).symm
    rw [List.flatten_cons] at hlater
    exact (List.disjoint_of_nodup_append hnodup) hbefore hlater
  calc (hashNodes hashStringOf options nodes).get path
      = ((condensation options nodes).hashComponent hashStringOf (before.foldl
          ((condensation options nodes).hashComponent hashStringOf) .empty) component).get path := by
        rw [hresult, List.foldl_cons, get_foldl_of_not_mem hafter]
    _ = _ := by
        rw [get_hashComponent, if_pos hpath, Condensation.moduleHash, Condensation.componentHash,
          hentries]
        rfl

theorem Closed.get_hashNodes_none (h : Closed nodes)
    (hpath : nodes.get path = none) : (hashNodes hashStringOf options nodes).get path = none := by
  have hnone : path ∉ (tarjanSccs nodes).components.flatten := fun hmem => by
    obtain ⟨node, hget⟩ := mem_keys_iff.1 (h.mem_components.1 hmem)
    rw [hpath] at hget
    cases hget
  rw [hashNodes, get_foldl_of_not_mem hnone, JsMap.get_empty]

theorem eq_of_not_lt {a b : JsString} (hab : b.lt a = false) (hba : a.lt b = false) : a = b := by
  by_contra hne
  rw [JsString.lt_total hne hba] at hab
  cases hab

/-- A sort does not see the order of what it sorts. -/
theorem sortStrings_perm {values values' : List JsString} (h : values.Perm values') :
    sortStrings values = sortStrings values' := by
  have htotal : Std.Total fun a b : JsString => (!b.lt a) = true := ⟨fun a b => by
    cases hba : b.lt a with
    | false => exact .inl rfl
    | true =>
      have hasymm := JsString.lt_asymm hba
      rw [Bool.not_eq_true] at hasymm
      exact .inr (by rw [hasymm]; rfl)⟩
  have htrans : IsTrans JsString fun a b => (!b.lt a) = true := ⟨fun a b c hab hbc => by
    rw [Bool.not_eq_true'] at hab hbc ⊢
    by_contra hca
    rw [Bool.not_eq_false] at hca
    by_cases hac : a = b
    · rw [hac, hbc] at hca
      cases hca
    · have hlt := JsString.lt_trans hca (JsString.lt_total (Ne.symm hac) hab)
      rw [hbc] at hlt
      cases hlt⟩
  apply List.Perm.eq_of_pairwise _ (List.pairwise_insertionSort _ values)
    (List.pairwise_insertionSort _ values')
  · exact (List.perm_insertionSort _ values).trans (h.trans (List.perm_insertionSort _ values').symm)
  · intro a b _ _ hab hba
    rw [Bool.not_eq_true'] at hab hba
    exact eq_of_not_lt hab hba

/-- Two graphs that have the same nodes at paths closed under their edges. -/
structure Shared (nodes nodes' : JsMap JsString ModuleNode) (shared : JsString → Prop) : Prop where
  get : ∀ path, shared path → nodes.get path = nodes'.get path
  edge : ∀ path, shared path → ∀ target ∈ targets nodes path, shared target

section

variable {shared : JsString → Prop}

variable {path : JsString}

section

variable (h : Shared nodes nodes' shared)
include h

theorem Shared.targets (hpath : shared path) :
    ModuleIdentity.targets nodes path = ModuleIdentity.targets nodes' path := by
  rw [ModuleIdentity.targets, ModuleIdentity.targets, h.get path hpath]

theorem Shared.symm : Shared nodes' nodes shared where
  get path hpath := (h.get path hpath).symm
  edge path hpath := by
    rw [← h.targets hpath]
    exact h.edge path hpath

theorem Shared.reach {path' : JsString} (hpath : shared path)
    (hreach : Tarjan.Reach (ModuleIdentity.targets nodes) path path') :
    shared path' ∧ Tarjan.Reach (ModuleIdentity.targets nodes') path path' := by
  induction hreach with
  | refl => exact ⟨hpath, .refl⟩
  | tail _ hedge ih =>
    refine ⟨h.edge _ ih.1 _ hedge, ih.2.tail ?_⟩
    rw [← h.targets ih.1]
    exact hedge

/-- A shared path has one unit in both. -/
theorem Shared.unit (hclosed : Closed nodes) (hclosed' : Closed nodes') (hpath : shared path)
    {component component' : List JsString} (hcomponent : component ∈ (tarjanSccs nodes).components)
    (hcomponent' : component' ∈ (tarjanSccs nodes').components) (hmem : path ∈ component)
    (hmem' : path ∈ component') (other : JsString) : other ∈ component ↔ other ∈ component' := by
  rw [hclosed.condensed.strong component hcomponent path hmem,
    hclosed'.condensed.strong component' hcomponent' path hmem']
  constructor
  · rintro ⟨hto, hback⟩
    obtain ⟨hother, hto⟩ := h.reach hpath hto
    exact ⟨hto, (h.reach hother hback).2⟩
  · rintro ⟨hto, hback⟩
    obtain ⟨hother, hto⟩ := h.symm.reach hpath hto
    exact ⟨hto, (h.symm.reach hother hback).2⟩

end

theorem nodup_component (h : Closed nodes) {component : List JsString}
    (hcomponent : component ∈ (tarjanSccs nodes).components) : component.Nodup :=
  h.condensed.nodup.sublist (List.sublist_flatten_of_mem hcomponent)

/-- Shared modules have one hash: by induction on the unit, what a unit imports comes before it. -/
theorem Shared.hashes (h : Shared nodes nodes' shared) (hclosed : Closed nodes)
    (hclosed' : Closed nodes') (hpath : shared path) :
    (hashNodes hashStringOf options nodes).get path =
      (hashNodes hashStringOf options nodes').get path := by
  have hunits : ∀ (k : Nat) (component : List JsString), (tarjanSccs nodes).components[k]? = some component →
      ∀ path ∈ component, shared path →
        (hashNodes hashStringOf options nodes).get path =
          (hashNodes hashStringOf options nodes').get path := by
    intro k
    induction k using Nat.strongRecOn with
    | ind k ih =>
      intro component hk path hmem hpath
      have hcomponent := List.mem_of_getElem? hk
      have hkeys : path ∈ nodes'.keys := by
        obtain ⟨node, hget⟩ := mem_keys_iff.1
          (hclosed.mem_components.1 (List.mem_flatten.2 ⟨component, hcomponent, hmem⟩))
        exact mem_keys_iff.2 ⟨node, (h.get path hpath).symm.trans hget⟩
      obtain ⟨component', hcomponent', hmem'⟩ :=
        List.mem_flatten.1 (hclosed'.mem_components.2 hkeys)
      obtain ⟨k', hk'⟩ := List.mem_iff_getElem?.1 hcomponent'
      have hunit := h.unit hclosed hclosed' hpath hcomponent hcomponent' hmem hmem'
      have hshared : ∀ member ∈ component, shared member := fun member hmember =>
        (h.reach hpath ((hclosed.condensed.strong component hcomponent path hmem member).1
          hmember).1).1
      have hsorted : sortStrings component = sortStrings component' :=
        sortStrings_perm ((List.perm_ext_iff_of_nodup (nodup_component hclosed hcomponent)
          (nodup_component hclosed' hcomponent')).2 hunit)
      have hentries : (condensation options nodes).entries (hashNodes hashStringOf options nodes)
          component = (condensation options nodes').entries (hashNodes hashStringOf options nodes')
          component' := by
        rw [Condensation.entries, Condensation.entries, ← hsorted]
        apply List.map_congr_left
        intro member hmember
        rw [mem_sortStrings] at hmember
        have hmember' := (hunit member).1 hmember
        have hnode : (condensation options nodes).nodes.get member =
            (condensation options nodes').nodes.get member := h.get member (hshared member hmember)
        -- The same edges leave the unit, by the same targets.
        have hsame : ∀ target, (condensation options nodes).componentOf.get target =
            (condensation options nodes).componentOf.get member ↔
            (condensation options nodes').componentOf.get target =
              (condensation options nodes').componentOf.get member := fun target =>
          ((hclosed.same_unit hk hmember).trans (hunit target)).trans
            (hclosed'.same_unit hk' hmember').symm
        rw [hnode, memberEntry, memberEntry]
        simp only [ne_eq, hsame]
        congr 2
        apply List.map_congr_left
        intro dep hdep
        rw [List.mem_filter, decide_eq_true_eq] at hdep
        congr 1
        have htarget : dep.target ∈ ModuleIdentity.targets nodes member := by
          rw [ModuleIdentity.targets, h.get member (hshared member hmember)]
          cases hget : nodes'.get member with
          | none =>
            rw [show (condensation options nodes').nodes.get member = none from hget] at hdep
            exact (List.not_mem_nil hdep.1).elim
          | some node =>
            rw [show (condensation options nodes').nodes.get member = some node from hget] at hdep
            exact List.mem_map_of_mem hdep.1
        have hout : dep.target ∉ component := fun hin =>
          hdep.2 ((hsame dep.target).1 ((hclosed.same_unit hk hmember).2 hin))
        obtain ⟨j, hj, other, hother, hin⟩ :=
          (hclosed.target_unit hk hmember htarget).resolve_left hout
        exact ih j hj other hother dep.target hin
          (h.edge member (hshared member hmember) dep.target htarget)
      rw [hclosed.get_hashNodes hcomponent hmem, hclosed'.get_hashNodes hcomponent' hmem',
        Condensation.moduleHash, Condensation.moduleHash, Condensation.componentHash,
        Condensation.componentHash, hentries]
  cases hget : nodes.get path with
  | none =>
    rw [hclosed.get_hashNodes_none hget,
      hclosed'.get_hashNodes_none ((h.get path hpath).symm.trans hget)]
  | some node =>
    have hkeys := hclosed.mem_components.2 (mem_keys_iff.2 ⟨node, hget⟩)
    obtain ⟨component, hcomponent, hmem⟩ := List.mem_flatten.1 hkeys
    obtain ⟨k, hk⟩ := List.mem_iff_getElem?.1 hcomponent
    exact hunits k component hk path hmem hpath

end

/-- One module reaches another through imports. -/
def Reaches (reader : ModuleReader) (program : Program) (options : ModuleIdentityOptions)
    (path path' : JsString) : Prop :=
  ∃ nodes, moduleNodes reader program options = .ok nodes ∧
    Tarjan.Reach (targets nodes) path path'

/-- Each program has the files that a module reaches in the other. -/
structure SameClosure (reader : ModuleReader) (options : ModuleIdentityOptions)
    (program program' : Program) (path : JsString) : Prop where
  forth : ∀ file ∈ program.files, Reaches reader program options path file.name →
    file ∈ program'.files
  back : ∀ file ∈ program'.files, Reaches reader program' options path file.name →
    file ∈ program.files

section

variable (h : SameClosure reader options program program' path)
include h

theorem SameClosure.symm :
    SameClosure reader options program' program path := ⟨h.back, h.forth⟩

/-- The names that a reached file's specifiers lead to in one program are in the other. -/
theorem SameClosure.covers (hnodes : Nodes reader program options nodes)
    (hok : moduleNodes reader program options = .ok nodes) {file : Source}
    (hfile : file ∈ program.files) (hreach : Tarjan.Reach (targets nodes) path file.name)
    (hdata : options.dataFiles.has file.name = false) :
    Covers reader file ((options.declarations.get file.name).getD (reader.scanModule file))
      (codeNames program options.dataFiles) (codeNames program' options.dataFiles) := by
  intro specifier hspecifier target htarget
  obtain ⟨⟨other, hother, hname⟩, hcode⟩ := mem_codeNames.1 (findInternalTarget_mem htarget)
  refine mem_codeNames.2 ⟨⟨other, ?_, hname⟩, hcode⟩
  apply h.forth other hother
  refine ⟨nodes, hok, ?_⟩
  rw [hname]
  cases target_of_specifier hdata hspecifier htarget with
  | inl hself => exact hself ▸ hreach
  | inr hedge =>
    refine hreach.tail ?_
    obtain ⟨dep, hdep, rfl⟩ := List.mem_map.1 hedge
    rw [targets, (hnodes.get _ _).2 ⟨file, hfile, rfl, rfl⟩]
    exact List.mem_map_of_mem (List.mem_append_left _ hdep)

/-- A file that a module reaches in both programs has one node in both. -/
theorem SameClosure.node (hok : moduleNodes reader program options = .ok nodes)
    (hok' : moduleNodes reader program' options = .ok nodes') {path' : JsString}
    (hreach : Tarjan.Reach (targets nodes) path path')
    (hreach' : Tarjan.Reach (targets nodes') path path') : nodes.get path' = nodes'.get path' := by
  have hnodes := moduleNodes_ok hok
  have hnodes' := moduleNodes_ok hok'
  by_cases hfile : ∃ file ∈ program.files, file.name = path'
  · obtain ⟨file, hfile, rfl⟩ := hfile
    have hfile' := h.forth file hfile ⟨nodes, hok, hreach⟩
    have hedges : importEdges reader (codeNames program options.dataFiles) options file =
        importEdges reader (codeNames program' options.dataFiles) options file := by
      rw [importEdges, importEdges]
      cases hdata : options.dataFiles.has file.name with
      | true => rfl
      | false =>
        exact foldl_addImport_congr (h.covers hnodes hok hfile hreach hdata)
          (h.symm.covers hnodes' hok' hfile' hreach' hdata) _
    rw [(hnodes.get _ _).2 ⟨file, hfile, rfl, rfl⟩, (hnodes'.get _ _).2 ⟨file, hfile', rfl, rfl⟩,
      nodeOf, nodeOf, hedges]
  · have hmissing : nodes.get path' = none := by
      rw [Option.eq_none_iff_forall_ne_some]
      intro node hget
      obtain ⟨file, hmem, hname, -⟩ := (hnodes.get _ _).1 hget
      exact hfile ⟨file, hmem, hname⟩
    have hmissing' : nodes'.get path' = none := by
      rw [Option.eq_none_iff_forall_ne_some]
      intro node hget
      obtain ⟨file, hmem, hname, -⟩ := (hnodes'.get _ _).1 hget
      exact hfile ⟨file, h.back file hmem ⟨nodes', hok', hname ▸ hreach'⟩, hname⟩
    rw [hmissing, hmissing']

theorem SameClosure.shared (hok : moduleNodes reader program options = .ok nodes)
    (hok' : moduleNodes reader program' options = .ok nodes') :
    Shared nodes nodes' (Tarjan.Reach (targets nodes) path) := by
  have hboth : ∀ path', Tarjan.Reach (targets nodes) path path' →
      Tarjan.Reach (targets nodes') path path' := by
    intro path' hreach
    induction hreach with
    | refl => exact .refl
    | tail hbefore hedge ih =>
      refine ih.tail ?_
      rw [targets, ← h.node hok hok' hbefore ih]
      exact hedge
  exact ⟨fun path' hreach => h.node hok hok' hreach (hboth path' hreach),
    fun path' hreach target htarget => hreach.tail htarget⟩

end

end ModuleIdentity
