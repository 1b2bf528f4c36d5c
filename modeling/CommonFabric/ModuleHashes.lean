import Mathlib.Data.List.Sort
import CommonFabric.Checked
import CommonFabric.FieldOrder
import CommonFabric.JsMap
import CommonFabric.JsSet
import CommonFabric.JsValue
import CommonFabric.TarjanRun

/-!
# The imports of a program's modules

A specifier is resolved against the name of the module that imports it and matched against the
program's files, by the suffixes that a specifier leaves out. One that matches no file is external.
Data files have no imports and are imported by none.
-/

structure Source where
  name : JsString
  contents : JsString
  deriving DecidableEq

/-- Files with distinct names, as whatever collects them keys them by name. -/
structure Program where
  files : List Source
  names : (files.map (·.name)).Nodup

/-- An import edge within a program. -/
structure ModuleDep where
  specifier : JsString
  target : JsString
  deriving DecidableEq

structure ModuleIdentityOptions where
  runtimeFingerprint : Option JsString
  additionalInternalDeps : JsMap JsString (List ModuleDep)
  dataFiles : JsSet JsString
  /-- The imports of modules already scanned, by name. -/
  declarations : JsMap JsString (List JsString)

structure ModuleImportEdges where
  internalDeps : List ModuleDep
  externalDeps : List JsString

/-- What reads a module: the imports that its text declares, and a path joined to the directory of
the module that names it. -/
structure ModuleReader where
  scanModule : Source → List JsString
  resolveAgainstModule : JsString → JsString → JsString

namespace ModuleIdentity

def RESOLUTION_SUFFIXES : List JsString :=
  [".ts", ".tsx", ".js", ".jsx", ".mts", ".mjs", ".d.ts", "/index.ts", "/index.tsx", "/index.js",
    "/index.jsx", "/index.mts", "/index.mjs", ""]

def isImportRelative (specifier : JsString) : Bool :=
  specifier.startsWith "./" || specifier.startsWith "../"

def resolveImportSpecifier (reader : ModuleReader) (specifier : JsString) (file : Source) : JsString :=
  if isImportRelative specifier then reader.resolveAgainstModule specifier file.name else specifier

def findInternalTarget (fileNames : JsSet JsString) (resolved : JsString) : Option JsString :=
  (RESOLUTION_SUFFIXES.map resolved.append).find? fileNames.has

/-- The names of the program's files that may be imported. -/
def codeNames (program : Program) (dataFiles : JsSet JsString) : JsSet JsString :=
  JsSet.empty.addAll ((program.files.map (·.name)).filter fun name => !dataFiles.has name)

/-- One specifier of a module. A self-import contributes nothing. -/
def addImport (reader : ModuleReader) (fileNames : JsSet JsString) (file : Source)
    (edges : ModuleImportEdges) (specifier : JsString) : ModuleImportEdges :=
  match findInternalTarget fileNames (resolveImportSpecifier reader specifier file) with
  | some target =>
    if target = file.name then edges
    else { edges with internalDeps := edges.internalDeps ++ [⟨specifier, target⟩] }
  | none => { edges with externalDeps := edges.externalDeps ++ [specifier] }

/-- The edges of one file. -/
def importEdges (reader : ModuleReader) (fileNames : JsSet JsString)
    (options : ModuleIdentityOptions) (file : Source) : ModuleImportEdges :=
  if options.dataFiles.has file.name then ⟨[], []⟩
  else ((options.declarations.get file.name).getD (reader.scanModule file)).foldl
    (addImport reader fileNames file) ⟨[], []⟩

def resolveModuleImports (reader : ModuleReader) (program : Program)
    (options : ModuleIdentityOptions) : JsMap JsString ModuleImportEdges :=
  program.files.foldl (fun edges file => edges.set file.name
    (importEdges reader (codeNames program options.dataFiles) options file)) .empty

structure ModuleNode where
  path : JsString
  src : JsString
  internalDeps : List ModuleDep
  externalDeps : List JsString

/-- `contents.replace(/\r\n/g, "\n")`, on the units of a text. -/
def normalizeUnits : List UInt16 → List UInt16
  | 13 :: 10 :: rest => 10 :: normalizeUnits rest
  | u :: rest => u :: normalizeUnits rest
  | [] => []

def normalizeSource (contents : JsString) : JsString := ⟨normalizeUnits contents.units⟩

def missingTarget (file target : JsString) : JsString :=
  .concat ["Additional identity dependency from '", file, "' targets missing module '", target, "'."]

/-- The node of a file, given its edges. -/
def moduleNode (options : ModuleIdentityOptions) (file : Source) (edges : ModuleImportEdges) :
    ModuleNode where
  path := file.name
  src := if options.dataFiles.has file.name then file.contents else normalizeSource file.contents
  internalDeps := edges.internalDeps ++ (options.additionalInternalDeps.get file.name).getD []
  externalDeps := edges.externalDeps

/-- One file's turn in the loop that collects the nodes. -/
def addNode (options : ModuleIdentityOptions) (edges : JsMap JsString ModuleImportEdges)
    (nodes : JsMap JsString ModuleNode) (file : Source) :
    Except JsString (JsMap JsString ModuleNode) := do
  ((options.additionalInternalDeps.get file.name).getD []).forM fun dependency =>
    if edges.has dependency.target then .ok ()
    else .error (missingTarget file.name dependency.target)
  .ok (nodes.set file.name (moduleNode options file ((edges.get file.name).getD ⟨[], []⟩)))

/-- The nodes of a program's files, in their order. -/
def moduleNodes (reader : ModuleReader) (program : Program) (options : ModuleIdentityOptions) :
    Except JsString (JsMap JsString ModuleNode) :=
  program.files.foldlM (addNode options (resolveModuleImports reader program options)) .empty

def VERSION_TAG : JsString := "cf/module-id/v1"

structure ExternalLeaf where
  specifier : JsString
  leaf : JsString

/-- An import outside the unit, with the hash of what it leads to. -/
structure CrossDep where
  specifier : JsString
  hash : Option JsString

structure MemberEntry where
  path : JsString
  src : JsString
  external : List ExternalLeaf
  crossDeps : List CrossDep
  intraDeps : List ModuleDep

/-- `sort()` of strings, by their units. -/
def sortStrings (values : List JsString) : List JsString := values.insertionSort fun a b => !b.lt a

/-- `<` where one side may be `undefined`. -/
def ltOption : Option JsString → Option JsString → Bool
  | some a, some b => a.lt b
  | _, _ => false

def compareCrossDep (a b : CrossDep) : Int :=
  if a.specifier = b.specifier then
    if ltOption a.hash b.hash then -1 else if ltOption b.hash a.hash then 1 else 0
  else if a.specifier.lt b.specifier then -1 else 1

def compareIntraDep (a b : ModuleDep) : Int :=
  if a.specifier = b.specifier then
    if a.target.lt b.target then -1 else if b.target.lt a.target then 1 else 0
  else if a.specifier.lt b.specifier then -1 else 1

/-- `[...new Set(values)]`. -/
def unique (values : List JsString) : List JsString := (JsSet.empty.addAll values).items

/-- The nodes that a node's internal edges lead to. -/
def targets (nodes : JsMap JsString ModuleNode) (path : JsString) : List JsString :=
  ((nodes.get path).elim [] (·.internalDeps)).map (·.target)

def tarjanSccs (nodes : JsMap JsString ModuleNode) : Tarjan.State JsString :=
  Tarjan.sccs nodes.keys (targets nodes)

def externalLeaf (runtimeFingerprint specifier : JsString) : ExternalLeaf :=
  ⟨specifier, .concat ["runtime:", specifier, "@", runtimeFingerprint]⟩

/-- The entry of a member of a unit. -/
def memberEntry (runtimeFingerprint : JsString) (componentOf : JsMap JsString Nat)
    (result : JsMap JsString JsString) (path : JsString) (node : ModuleNode) : MemberEntry where
  path := path
  src := node.src
  external := (sortStrings (unique node.externalDeps)).map (externalLeaf runtimeFingerprint)
  crossDeps := ((node.internalDeps.filter fun dep =>
      componentOf.get dep.target ≠ componentOf.get path).map fun dep =>
        (⟨dep.specifier, result.get dep.target⟩ : CrossDep)).insertionSort
      fun a b => compareCrossDep a b ≤ 0
  intraDeps := (node.internalDeps.filter fun dep =>
      componentOf.get dep.target = componentOf.get path).insertionSort
      fun a b => compareIntraDep a b ≤ 0

def arrayOf (values : List FabricValue) : FabricValue := .array (values.map some)

def ExternalLeaf.toValue (leaf : ExternalLeaf) : FabricValue :=
  .record [("specifier", .string leaf.specifier), ("leaf", .string leaf.leaf)]

def CrossDep.toValue (dep : CrossDep) : FabricValue :=
  .record [("specifier", .string dep.specifier), ("hash", dep.hash.elim .undefined .string)]

def intraDepValue (dep : ModuleDep) : FabricValue :=
  .record [("specifier", .string dep.specifier), ("target", .string dep.target)]

def MemberEntry.toValue (entry : MemberEntry) : FabricValue :=
  .record [("path", .string entry.path), ("src", .string entry.src),
    ("external", arrayOf (entry.external.map (·.toValue))),
    ("crossDeps", arrayOf (entry.crossDeps.map (·.toValue))),
    ("intraDeps", arrayOf (entry.intraDeps.map intraDepValue))]

def componentValue (entries : List MemberEntry) : FabricValue :=
  .record [("v", .string VERSION_TAG), ("members", arrayOf (entries.map (·.toValue)))]

def moduleValue (componentHash path : JsString) : FabricValue :=
  arrayOf [.string VERSION_TAG, .string "module", .string componentHash, .string path]

/-- What the loop over the components reads. -/
structure Condensation where
  runtimeFingerprint : JsString
  nodes : JsMap JsString ModuleNode
  componentOf : JsMap JsString Nat

/-- The entries of a unit, in the order of their paths. -/
def Condensation.entries (g : Condensation) (result : JsMap JsString JsString)
    (component : List JsString) : List MemberEntry :=
  (sortStrings component).map fun path =>
    memberEntry g.runtimeFingerprint g.componentOf result path
      ((g.nodes.get path).getD ⟨path, "", [], []⟩)

def Condensation.componentHash (g : Condensation) (hashStringOf : FabricValue → JsString)
    (result : JsMap JsString JsString) (component : List JsString) : JsString :=
  hashStringOf (componentValue (g.entries result component))

/-- A unit's turn in the loop. -/
def Condensation.hashComponent (g : Condensation) (hashStringOf : FabricValue → JsString)
    (result : JsMap JsString JsString) (component : List JsString) : JsMap JsString JsString :=
  (sortStrings component).foldl (fun results path =>
    results.set path (hashStringOf (moduleValue (g.componentHash hashStringOf result component) path)))
    result

def condensation (options : ModuleIdentityOptions) (nodes : JsMap JsString ModuleNode) :
    Condensation :=
  ⟨options.runtimeFingerprint.getD "", nodes, (tarjanSccs nodes).componentOf⟩

/-- The hashes of the modules that the nodes are. -/
def hashNodes (hashStringOf : FabricValue → JsString) (options : ModuleIdentityOptions)
    (nodes : JsMap JsString ModuleNode) : JsMap JsString JsString :=
  (tarjanSccs nodes).components.foldl ((condensation options nodes).hashComponent hashStringOf) .empty

variable {reader : ModuleReader} {program program' : Program} {options : ModuleIdentityOptions}
  {nodes nodes' : JsMap JsString ModuleNode}

/-- The node of a program's file. -/
def nodeOf (reader : ModuleReader) (program : Program) (options : ModuleIdentityOptions)
    (file : Source) : ModuleNode :=
  moduleNode options file (importEdges reader (codeNames program options.dataFiles) options file)

theorem resolveModuleImports_eq : resolveModuleImports reader program options =
    JsMap.empty.setAll (program.files.map fun file =>
      (file.name, importEdges reader (codeNames program options.dataFiles) options file)) := by
  rw [resolveModuleImports, JsMap.setAll, List.foldl_map]

theorem get_setAll_files {β : Type} (m : JsMap JsString β) (f : Source → β) (name : JsString) :
    (∀ file ∈ program.files, file.name = name →
      (m.setAll (program.files.map fun file => (file.name, f file))).get name = some (f file)) ∧
    ((∀ file ∈ program.files, file.name ≠ name) →
      (m.setAll (program.files.map fun file => (file.name, f file))).get name = m.get name) := by
  have hkeys : (program.files.map fun file => (file.name, f file)).map (·.1) =
      program.files.map (·.name) := by
    rw [List.map_map]
    rfl
  constructor
  · intro file hfile hname
    rw [← hname]
    exact JsMap.get_setAll_of_mem m (by rw [hkeys]; exact program.names)
      (List.mem_map_of_mem (f := fun file => (file.name, f file)) hfile)
  · intro hnone
    apply JsMap.get_setAll_of_not_mem
    rw [hkeys]
    intro hmem
    obtain ⟨file, hfile, hname⟩ := List.mem_map.1 hmem
    exact hnone file hfile hname

variable {file : Source} {fileNames : JsSet JsString}

theorem edges_get (hfile : file ∈ program.files) :
    (resolveModuleImports reader program options).get file.name =
      some (importEdges reader (codeNames program options.dataFiles) options file) := by
  rw [resolveModuleImports_eq]
  exact (get_setAll_files _ _ _).1 file hfile rfl

theorem edges_has {name : JsString}
    (h : (resolveModuleImports reader program options).has name = true) :
    ∃ file ∈ program.files, file.name = name := by
  by_contra hnone
  have hget := (@get_setAll_files program _ JsMap.empty
    (importEdges reader (codeNames program options.dataFiles) options) name).2
      fun file hfile hname => hnone ⟨file, hfile, hname⟩
  rw [← resolveModuleImports_eq] at hget
  rw [JsMap.has, hget] at h
  cases h

theorem addNode_ok {edges : JsMap JsString ModuleImportEdges}
    (h : addNode options edges nodes file = .ok nodes') :
    nodes' = nodes.set file.name (moduleNode options file ((edges.get file.name).getD ⟨[], []⟩)) ∧
      ∀ dep ∈ (options.additionalInternalDeps.get file.name).getD [],
        edges.has dep.target = true := by
  obtain ⟨hcheck, h⟩ := Except.check_ok_iff.1 h
  refine ⟨(Except.ok.inj h).symm, fun dep hdep => ?_⟩
  have hone := List.forM_ok_mem hcheck hdep
  by_contra hnone
  rw [if_neg hnone] at hone
  cases hone

/-- What the nodes of a program are, where they are found. -/
structure Nodes (reader : ModuleReader) (program : Program) (options : ModuleIdentityOptions)
    (nodes : JsMap JsString ModuleNode) : Prop where
  get : ∀ path node, nodes.get path = some node ↔
    ∃ file ∈ program.files, file.name = path ∧ node = nodeOf reader program options file
  additional : ∀ file ∈ program.files,
    ∀ dep ∈ (options.additionalInternalDeps.get file.name).getD [],
      ∃ target ∈ program.files, target.name = dep.target

theorem moduleNodes_ok (h : moduleNodes reader program options = .ok nodes) :
    Nodes reader program options nodes := by
  have hrun : ∀ (files : List Source) (m : JsMap JsString ModuleNode),
      (∀ file ∈ files, file ∈ program.files) →
      files.foldlM (addNode options (resolveModuleImports reader program options)) m = .ok nodes →
      nodes = m.setAll (files.map fun file => (file.name, nodeOf reader program options file)) ∧
        ∀ file ∈ files, ∀ dep ∈ (options.additionalInternalDeps.get file.name).getD [],
          ∃ target ∈ program.files, target.name = dep.target := by
    intro files
    induction files with
    | nil =>
      intro m _ hm
      cases hm
      exact ⟨rfl, fun _ hfile => (List.not_mem_nil hfile).elim⟩
    | cons file files ih =>
      intro m hfiles hm
      rw [List.forall_mem_cons] at hfiles
      obtain ⟨m', hm', hm⟩ := List.foldlM_cons_ok.1 hm
      obtain ⟨heq, hadditional⟩ := addNode_ok hm'
      obtain ⟨hnodes, hrest⟩ := ih m' hfiles.2 hm
      rw [edges_get hfiles.1, Option.getD_some] at heq
      refine ⟨?_, List.forall_mem_cons.2 ⟨fun dep hdep => edges_has (hadditional dep hdep), hrest⟩⟩
      rw [hnodes, heq]
      rfl
  obtain ⟨heq, hadditional⟩ := hrun program.files .empty (fun _ hfile => hfile) h
  refine ⟨fun path node => ?_, hadditional⟩
  obtain ⟨hthere, hnone⟩ := @get_setAll_files program _ JsMap.empty
    (nodeOf reader program options) path
  rw [← heq] at hthere hnone
  constructor
  · intro hget
    by_contra hmissing
    by_cases hfile : ∃ file ∈ program.files, file.name = path
    · obtain ⟨file, hfile, hname⟩ := hfile
      rw [hthere file hfile hname, Option.some_inj] at hget
      exact hmissing ⟨file, hfile, hname, hget.symm⟩
    · rw [hnone fun file hmem hname => hfile ⟨file, hmem, hname⟩] at hget
      cases hget
  · rintro ⟨file, hfile, hname, rfl⟩
    exact hthere file hfile hname

theorem mem_keys_iff {path : JsString} : path ∈ nodes.keys ↔ ∃ node, nodes.get path = some node := by
  rw [JsMap.keys, List.mem_map]
  constructor
  · rintro ⟨entry, hentry, rfl⟩
    exact ⟨entry.2, JsMap.get_of_mem hentry⟩
  · rintro ⟨node, hget⟩
    exact ⟨(path, node), JsMap.mem_of_get hget, rfl⟩

theorem findInternalTarget_mem {resolved target : JsString}
    (h : findInternalTarget fileNames resolved = some target) : target ∈ fileNames :=
  JsSet.has_iff.1 (List.find?_some h)

theorem mem_codeNames {dataFiles : JsSet JsString} {name : JsString} :
    name ∈ codeNames program dataFiles ↔
      (∃ file ∈ program.files, file.name = name) ∧ name ∉ dataFiles := by
  rw [codeNames, JsSet.mem_addAll, List.mem_filter, List.mem_map]
  simp [JsSet.has]

/-- An internal edge is one that a specifier leads to. -/
theorem mem_internalDeps {dep : ModuleDep} {specifiers : List JsString} {edges : ModuleImportEdges}
    (h : dep ∈ (specifiers.foldl (addImport reader fileNames file) edges).internalDeps) :
    dep ∈ edges.internalDeps ∨ dep.target ∈ fileNames := by
  induction specifiers generalizing edges with
  | nil => exact .inl h
  | cons specifier specifiers ih =>
    cases ih h with
    | inr hlater => exact .inr hlater
    | inl hnow =>
      rw [addImport] at hnow
      split at hnow
      · rename_i target htarget
        split at hnow
        · exact .inl hnow
        · cases List.mem_append.1 hnow with
          | inl hbefore => exact .inl hbefore
          | inr hnew =>
            rw [List.mem_singleton] at hnew
            rw [hnew]
            exact .inr (findInternalTarget_mem htarget)
      · exact .inl hnow

theorem mem_importEdges {dep : ModuleDep}
    (h : dep ∈ (importEdges reader fileNames options file).internalDeps) :
    dep.target ∈ fileNames := by
  rw [importEdges] at h
  split at h
  · exact (List.not_mem_nil h).elim
  · exact (mem_internalDeps h).resolve_left List.not_mem_nil

/-- Every edge leads to a node. -/
theorem Nodes.closed (h : Nodes reader program options nodes) :
    ∀ path ∈ nodes.keys, ∀ target ∈ targets nodes path, target ∈ nodes.keys := by
  intro path hpath target htarget
  obtain ⟨node, hget⟩ := mem_keys_iff.1 hpath
  rw [targets, hget] at htarget
  obtain ⟨dep, hdep, rfl⟩ := List.mem_map.1 htarget
  obtain ⟨file, hfile, -, rfl⟩ := (h.get path node).1 hget
  have hnamed : ∃ target ∈ program.files, target.name = dep.target := by
    cases List.mem_append.1 hdep with
    | inl himport => exact (mem_codeNames.1 (mem_importEdges himport)).1
    | inr hadditional => exact h.additional file hfile dep hadditional
  obtain ⟨other, hother, hname⟩ := hnamed
  exact mem_keys_iff.2 ⟨_, (h.get _ _).2 ⟨other, hother, hname, rfl⟩⟩

theorem find?_eq_of_found {p q : JsString → Bool} {candidates : List JsString}
    (hp : ∀ x, candidates.find? p = some x → q x = true)
    (hq : ∀ x, candidates.find? q = some x → p x = true) :
    candidates.find? p = candidates.find? q := by
  induction candidates with
  | nil => rfl
  | cons x rest ih =>
    cases hpx : p x with
    | true =>
      rw [List.find?_cons_of_pos hpx] at hp ⊢
      rw [List.find?_cons_of_pos (hp x rfl)]
    | false =>
      have hpx' : ¬p x = true := by rw [hpx]; exact Bool.false_ne_true
      cases hqx : q x with
      | true =>
        rw [List.find?_cons_of_pos hqx] at hq
        exact absurd (hq x rfl) hpx'
      | false =>
        have hqx' : ¬q x = true := by rw [hqx]; exact Bool.false_ne_true
        rw [List.find?_cons_of_neg hpx'] at hp ⊢
        rw [List.find?_cons_of_neg hqx'] at hq ⊢
        exact ih hp hq

/-- The targets that one set of names gives a file's specifiers, its own name apart, are in
another. -/
def Covers (reader : ModuleReader) (file : Source) (specifiers : List JsString)
    (fileNames fileNames' : JsSet JsString) : Prop :=
  ∀ specifier ∈ specifiers, ∀ target,
    findInternalTarget fileNames (resolveImportSpecifier reader specifier file) = some target →
      target ∈ fileNames'

theorem foldl_addImport_congr {fileNames' : JsSet JsString}
    {specifiers : List JsString} (h : Covers reader file specifiers fileNames fileNames')
    (h' : Covers reader file specifiers fileNames' fileNames) (edges : ModuleImportEdges) :
    specifiers.foldl (addImport reader fileNames file) edges =
      specifiers.foldl (addImport reader fileNames' file) edges := by
  apply List.foldl_ext
  intro edges specifier hspecifier
  have hfind : findInternalTarget fileNames (resolveImportSpecifier reader specifier file) =
      findInternalTarget fileNames' (resolveImportSpecifier reader specifier file) := by
    apply find?_eq_of_found
    · exact fun target htarget => JsSet.has_iff.2 (h specifier hspecifier target htarget)
    · exact fun target htarget => JsSet.has_iff.2 (h' specifier hspecifier target htarget)
  rw [addImport, addImport, hfind]

/-- A target of a file's specifier is the file itself or a target of its node. -/
theorem target_of_specifier {specifier : JsString} (hdata : options.dataFiles.has file.name = false)
    (hspecifier : specifier ∈
      (options.declarations.get file.name).getD (reader.scanModule file)) {target : JsString}
    (h : findInternalTarget fileNames (resolveImportSpecifier reader specifier file) = some target) :
    target = file.name ∨
      target ∈ ((importEdges reader fileNames options file).internalDeps).map (·.target) := by
  by_cases hself : target = file.name
  · exact .inl hself
  · have hkept : ∀ (specifiers : List JsString) (edges : ModuleImportEdges), ∀ dep ∈ edges.internalDeps,
        dep ∈ (specifiers.foldl (addImport reader fileNames file) edges).internalDeps := by
      intro specifiers
      induction specifiers with
      | nil => exact fun _ _ hdep => hdep
      | cons other specifiers ih =>
        intro edges dep hdep
        apply ih
        rw [addImport]
        split
        · split
          · exact hdep
          · exact List.mem_append_left _ hdep
        · exact hdep
    refine .inr (List.mem_map.2 ⟨⟨specifier, target⟩, ?_, rfl⟩)
    rw [importEdges, if_neg (by rw [hdata]; exact Bool.false_ne_true)]
    obtain ⟨before, after, hsplit⟩ := List.append_of_mem hspecifier
    rw [hsplit, List.foldl_append, List.foldl_cons]
    apply hkept
    rw [addImport, h]
    dsimp only
    rw [if_neg hself]
    exact List.mem_append_right _ List.mem_cons_self

end ModuleIdentity
