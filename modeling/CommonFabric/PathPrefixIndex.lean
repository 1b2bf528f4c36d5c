import CommonFabric.JsMap
import CommonFabric.JsSet
import CommonFabric.ValuePath

/-!
# A trie of label paths

A label path may hold `*`, which stands for any segment, on either side of a comparison. The trie
answers which of its paths are above or below a concrete one by following one branch: beside each
node are the paths whose first `*` comes next, and only these are compared.
-/

namespace Cfc

/-- Whether `pre` prefixes `path`, with `*` matching any segment on either side. -/
def isPrefix : ValuePath → ValuePath → Bool
  | [], _ => true
  | _ :: _, [] => false
  | segment :: pre, other :: path =>
    (segment = other || segment = "*" || other = "*") && isPrefix pre path

/-- Whether a source is above a path or at it, or else, where descendants count, below it. -/
def meets (includeDescendants : Bool) (path source : ValuePath) : Bool :=
  isPrefix source path || includeDescendants && isPrefix path source

inductive PathPrefixNode where
  | node (path : Option ValuePath) (wildcardPaths : List ValuePath)
      (children : List (JsString × PathPrefixNode))

section Prefixes

variable {p q s path rest : ValuePath} {segment other : JsString}

@[simp] theorem isPrefix_nil (path : ValuePath) : isPrefix [] path = true := by
  cases path <;> rfl

theorem isPrefix_append (p q path : ValuePath) : isPrefix (p ++ q) (p ++ path) = isPrefix q path := by
  induction p with
  | nil => rfl
  | cons segment p ih => simp [isPrefix, ih]

theorem isPrefix_of_prefix (h : p <+: s) : isPrefix p s = true := by
  obtain ⟨r, rfl⟩ := h
  have := isPrefix_append p [] r
  rwa [List.append_nil, isPrefix_nil] at this

theorem isPrefix_length (h : isPrefix p s = true) : p.length ≤ s.length := by
  induction p generalizing s with
  | nil => simp
  | cons segment p ih =>
    cases s with
    | nil => cases h
    | cons other s =>
      rw [isPrefix, Bool.and_eq_true] at h
      simpa using ih h.2

/-- Paths that part at two different segments do not meet. -/
theorem isPrefix_parted (hne : segment ≠ other) (hs : segment ≠ "*") (ho : other ≠ "*") :
    isPrefix (p ++ segment :: q) (p ++ other :: rest) = false := by
  rw [isPrefix_append, isPrefix]
  simp [hne, hs, ho]

/-- What is below a path, by the segment that comes next. -/
theorem prefix_cases (h : p <+: s) :
    s = p ∨ p ++ [("*" : JsString)] <+: s ∨
      ∃ segment : JsString, segment ≠ "*" ∧ p ++ [segment] <+: s := by
  obtain ⟨r, rfl⟩ := h
  cases r with
  | nil => exact .inl (List.append_nil p)
  | cons segment r =>
    have hnext : p ++ [segment] <+: p ++ segment :: r := by
      rw [List.prefix_append_right_inj]
      simp
    by_cases hsegment : segment = "*"
    · subst hsegment
      exact .inr (.inl hnext)
    · exact .inr (.inr ⟨segment, hsegment, hnext⟩)

end Prefixes

namespace PathPrefixNode

/-- `createNode()`. -/
def empty : PathPrefixNode := .node none [] []

def path : PathPrefixNode → Option ValuePath
  | .node path _ _ => path

def wildcardPaths : PathPrefixNode → List ValuePath
  | .node _ wildcardPaths _ => wildcardPaths

def children : PathPrefixNode → List (JsString × PathPrefixNode)
  | .node _ _ children => children

def child (n : PathPrefixNode) (segment : JsString) : Option PathPrefixNode :=
  JsMap.getEntries segment n.children

/-- The node at a path; where there is none, an empty one. -/
def nodeAt : PathPrefixNode → ValuePath → PathPrefixNode
  | n, [] => n
  | n, segment :: rest => ((n.child segment).getD empty).nodeAt rest

/-- A new path is set down along its own segments, and beside the node ahead of its first `*`;
`wild` is whether that one has been passed. -/
def insert (copy : ValuePath) : ValuePath → Bool → PathPrefixNode → PathPrefixNode
  | [], _, .node _ wildcardPaths children => .node (some copy) wildcardPaths children
  | segment :: rest, wild, .node path wildcardPaths children =>
    .node path (if segment = "*" && !wild then wildcardPaths ++ [copy] else wildcardPaths)
      (JsMap.setEntries segment
        (insert copy rest (wild || segment = "*") ((JsMap.getEntries segment children).getD empty))
        children)

mutual

/-- The paths at a node and below it; the last child is popped first. -/
def pathsFrom : PathPrefixNode → List ValuePath
  | .node path _ children => path.toList ++ pathsOfChildren children

def pathsOfChildren : List (JsString × PathPrefixNode) → List ValuePath
  | [] => []
  | (_, child) :: children => pathsOfChildren children ++ pathsFrom child

end

end PathPrefixNode

structure PathPrefixIndex where
  root : PathPrefixNode
  /-- The same paths, for the queries the trie declines. -/
  paths : List ValuePath

namespace PathPrefixIndex

open PathPrefixNode

def empty : PathPrefixIndex := ⟨PathPrefixNode.empty, []⟩

/-- A path that was added before has all its nodes. -/
def add (index : PathPrefixIndex) (path : ValuePath) : PathPrefixIndex :=
  match (index.root.nodeAt path).path with
  | some _ => index
  | none => ⟨PathPrefixNode.insert path path false index.root, index.paths ++ [path]⟩

def addAll (paths : List ValuePath) : PathPrefixIndex := paths.foldl add empty

/-- `#matches` of a concrete path, from a node on. -/
def matchesFrom (path : ValuePath) (includeDescendants : Bool) : ValuePath → PathPrefixNode → Bool
  | [], n => includeDescendants && !n.children.isEmpty
  | segment :: rest, n =>
    n.wildcardPaths.any (meets includeDescendants path) ||
      match n.child segment with
      | none => false
      | some next => next.path.isSome || matchesFrom path includeDescendants rest next

/-- `#matches`. -/
def matchesPath (index : PathPrefixIndex) (path : ValuePath) (includeDescendants : Bool) : Bool :=
  index.root.path.isSome ||
    if path.contains "*" then index.paths.any (meets includeDescendants path)
    else matchesFrom path includeDescendants path index.root

def hasPrefixOf (index : PathPrefixIndex) (path : ValuePath) : Bool := index.matchesPath path false

def overlaps (index : PathPrefixIndex) (path : ValuePath) : Bool := index.matchesPath path true

/-- What a concrete path finds, from a node on. -/
def foundFrom (path : ValuePath) : ValuePath → PathPrefixNode → JsSet ValuePath → JsSet ValuePath
  | [], n, found => found.addAll n.pathsFrom
  | segment :: rest, n, found =>
    let found := found.addAll n.path.toList
    let found := found.addAll (n.wildcardPaths.filter (meets true path))
    match n.child segment with
    | none => found
    | some next => foundFrom path rest next found

def overlapping (index : PathPrefixIndex) (path : ValuePath) : List ValuePath :=
  if path.contains "*" then index.paths.filter (meets true path)
  else (foundFrom path path index.root .empty).items

section Nodes

variable {n : PathPrefixNode} {p path rest copy : ValuePath} {segment : JsString} {wild : Bool}

@[simp] theorem path_empty : PathPrefixNode.empty.path = none := rfl
@[simp] theorem wildcardPaths_empty : PathPrefixNode.empty.wildcardPaths = [] := rfl
@[simp] theorem child_empty : PathPrefixNode.empty.child segment = none := rfl

@[simp] theorem nodeAt_empty : PathPrefixNode.empty.nodeAt p = PathPrefixNode.empty := by
  induction p with
  | nil => rfl
  | cons segment p ih => exact ih

theorem nodeAt_append : n.nodeAt (p ++ rest) = (n.nodeAt p).nodeAt rest := by
  induction p generalizing n with
  | nil => rfl
  | cons segment p ih => exact ih

theorem nodeAt_child : n.nodeAt (p ++ [segment]) = ((n.nodeAt p).child segment).getD .empty :=
  nodeAt_append

theorem child_insert (segment' : JsString) :
    (PathPrefixNode.insert copy (segment :: rest) wild n).child segment' =
      if segment = segment' then
        some (PathPrefixNode.insert copy rest (wild || segment = "*")
          ((n.child segment).getD .empty))
      else n.child segment' := by
  obtain ⟨path, wildcardPaths, children⟩ := n
  exact JsMap.getEntries_setEntries _ _ _ _

/-- What is set down goes along its own path, and nothing else is changed. -/
theorem nodeAt_insert : ∀ {n : PathPrefixNode} {rest : ValuePath} {wild : Bool},
    (PathPrefixNode.insert copy rest wild n).nodeAt p =
      if p <+: rest then
        PathPrefixNode.insert copy (rest.drop p.length) (wild || p.contains "*") (n.nodeAt p)
      else n.nodeAt p := by
  induction p with
  | nil =>
    intro n rest wild
    simp [PathPrefixNode.nodeAt]
  | cons segment p ih =>
    intro n rest wild
    cases rest with
    | nil =>
      rw [if_neg (by simp)]
      obtain ⟨path, wildcardPaths, children⟩ := n
      rfl
    | cons segment' rest =>
      rw [PathPrefixNode.nodeAt, child_insert]
      by_cases hsegment : segment' = segment
      · subst hsegment
        rw [if_pos rfl, Option.getD_some, ih]
        simp [List.cons_prefix_cons, PathPrefixNode.nodeAt, Bool.or_assoc, eq_comm]
      · rw [if_neg hsegment, if_neg]
        · rfl
        · rw [List.cons_prefix_cons]
          exact fun h => hsegment h.1.symm

theorem path_insert : (PathPrefixNode.insert copy rest wild n).path =
    if rest = [] then some copy else n.path := by
  obtain ⟨path, wildcardPaths, children⟩ := n
  cases rest <;> rfl

theorem child_insert_nil (segment : JsString) :
    (PathPrefixNode.insert copy [] wild n).child segment = n.child segment := by
  obtain ⟨path, wildcardPaths, children⟩ := n
  rfl

theorem wildcardPaths_insert : (PathPrefixNode.insert copy rest wild n).wildcardPaths =
    if rest.head? = some ("*" : JsString) ∧ wild = false then n.wildcardPaths ++ [copy]
    else n.wildcardPaths := by
  obtain ⟨path, wildcardPaths, children⟩ := n
  cases rest with
  | nil => rfl
  | cons segment rest => simp [PathPrefixNode.insert, PathPrefixNode.wildcardPaths]

theorem pathsOfChildren_perm (children : List (JsString × PathPrefixNode)) :
    (PathPrefixNode.pathsOfChildren children).Perm (children.flatMap fun e => e.2.pathsFrom) := by
  induction children with
  | nil => exact .nil
  | cons e children ih =>
    obtain ⟨segment, child⟩ := e
    rw [PathPrefixNode.pathsOfChildren, List.flatMap_cons]
    exact (ih.append_right _).trans List.perm_append_comm

/-- A path that is new to the trie is there besides what was. -/
theorem pathsFrom_insert : ∀ {n : PathPrefixNode} {wild : Bool}, (n.nodeAt rest).path = none →
    (PathPrefixNode.insert copy rest wild n).pathsFrom.Perm (copy :: n.pathsFrom) := by
  induction rest with
  | nil =>
    intro n wild hnew
    obtain ⟨path, wildcardPaths, children⟩ := n
    change path = none at hnew
    subst hnew
    exact .refl _
  | cons segment rest ih =>
    intro n wild hnew
    obtain ⟨path, wildcardPaths, children⟩ := n
    have hchild : (PathPrefixNode.insert copy rest (wild || segment = "*")
        ((JsMap.getEntries segment children).getD .empty)).pathsFrom.Perm
          ([copy] ++ ((JsMap.getEntries segment children).map PathPrefixNode.pathsFrom).getD []) := by
      have hperm : (PathPrefixNode.insert copy rest (wild || segment = "*")
          ((JsMap.getEntries segment children).getD .empty)).pathsFrom.Perm
            (copy :: ((JsMap.getEntries segment children).getD .empty).pathsFrom) := ih hnew
      cases hc : JsMap.getEntries segment children with
      | none =>
        rw [hc] at hperm
        exact hperm
      | some child =>
        rw [hc] at hperm
        exact hperm
    have hall := JsMap.flatMap_setEntries_perm hchild
    have hafter := (pathsOfChildren_perm _).trans
      (hall.trans ((pathsOfChildren_perm children).symm.append_left _))
    rw [PathPrefixNode.insert, PathPrefixNode.pathsFrom, PathPrefixNode.pathsFrom]
    exact (hafter.append_left _).trans (List.perm_append_comm_assoc _ [copy] _)

end Nodes

section Holds

variable {index : PathPrefixIndex} {p path s : ValuePath} {segment : JsString}

/-- The trie and the scanned list hold the same paths, each where it belongs. -/
structure Sound (index : PathPrefixIndex) : Prop where
  nodup : index.paths.Nodup
  path : ∀ p, (index.root.nodeAt p).path = if p ∈ index.paths then some p else none
  wildcard : ∀ p s, s ∈ (index.root.nodeAt p).wildcardPaths ↔
    s ∈ index.paths ∧ ("*" : JsString) ∉ p ∧ p ++ [("*" : JsString)] <+: s
  child : ∀ p segment, ((index.root.nodeAt p).child segment).isSome = true ↔
    ∃ s ∈ index.paths, p ++ [segment] <+: s
  below : ∀ p s, s ∈ (index.root.nodeAt p).pathsFrom ↔ s ∈ index.paths ∧ p <+: s

theorem Sound.empty : Sound empty := by
  refine ⟨List.nodup_nil, fun p => ?_, fun p s => ?_, fun p segment => ?_, fun p s => ?_⟩
  · rw [PathPrefixIndex.empty, nodeAt_empty]
    rfl
  · rw [PathPrefixIndex.empty, nodeAt_empty]
    simp
  · rw [PathPrefixIndex.empty, nodeAt_empty]
    simp
  · rw [PathPrefixIndex.empty, nodeAt_empty]
    simp [PathPrefixNode.empty, PathPrefixNode.pathsFrom, PathPrefixNode.pathsOfChildren]

theorem Sound.add (hs : Sound index) (path : ValuePath) :
    Sound (index.add path) ∧
      (index.add path).paths = if path ∈ index.paths then index.paths else index.paths ++ [path] := by
  rw [PathPrefixIndex.add, hs.path path]
  by_cases hmem : path ∈ index.paths
  · rw [if_pos hmem, if_pos hmem]
    exact ⟨hs, rfl⟩
  · rw [if_neg hmem, if_neg hmem]
    refine ⟨⟨?_, fun p => ?_, fun p s => ?_, fun p segment => ?_, fun p s => ?_⟩, rfl⟩
    · dsimp only
      rw [← List.concat_eq_append]
      exact hs.nodup.concat hmem
    · dsimp only
      rw [nodeAt_insert]
      split
      · rename_i hp
        obtain ⟨r, rfl⟩ := hp
        rw [path_insert, hs.path p, List.drop_left]
        cases r with
        | nil => simp
        | cons segment r => simp
      · rename_i hp
        have hne : p ≠ path := fun heq => hp (by rw [heq])
        rw [hs.path p]
        simp [hne]
    · dsimp only
      rw [nodeAt_insert]
      split
      · rename_i hp
        obtain ⟨r, rfl⟩ := hp
        have hhead : p ++ [("*" : JsString)] <+: p ++ r ↔ r.head? = some ("*" : JsString) := by
          rw [List.prefix_append_right_inj]
          cases r with
          | nil => simp
          | cons segment r => simp [List.cons_prefix_cons, eq_comm]
        have hwild : (false || p.contains "*") = false ↔ ("*" : JsString) ∉ p := by simp
        rw [wildcardPaths_insert, List.drop_left]
        split
        · rename_i hr
          rw [hwild] at hr
          rw [List.mem_append, List.mem_singleton, hs.wildcard p s, List.mem_append,
            List.mem_singleton]
          constructor
          · rintro (⟨hold, hp⟩ | rfl)
            · exact ⟨.inl hold, hp⟩
            · exact ⟨.inr rfl, hr.2, hhead.2 hr.1⟩
          · rintro ⟨hold | hnew, hp⟩
            · exact .inl ⟨hold, hp⟩
            · exact .inr hnew
        · rename_i hr
          rw [hs.wildcard p s, List.mem_append, List.mem_singleton]
          refine ⟨fun h => ⟨.inl h.1, h.2⟩, fun h => ⟨h.1.resolve_right ?_, h.2⟩⟩
          rintro rfl
          exact hr ⟨hhead.1 h.2.2, hwild.2 h.2.1⟩
      · rename_i hp
        rw [hs.wildcard p s, List.mem_append, List.mem_singleton]
        refine ⟨fun h => ⟨.inl h.1, h.2⟩, fun h => ⟨h.1.resolve_right ?_, h.2⟩⟩
        rintro rfl
        exact hp ((List.prefix_append p _).trans h.2.2)
    · dsimp only
      rw [nodeAt_insert]
      split
      · rename_i hp
        obtain ⟨r, rfl⟩ := hp
        rw [List.drop_left]
        have hnew : p ++ [segment] <+: p ++ r ↔ r.head? = some segment := by
          rw [List.prefix_append_right_inj]
          cases r with
          | nil => simp
          | cons segment' r => simp [List.cons_prefix_cons, eq_comm]
        have hiff : (∃ s ∈ index.paths ++ [p ++ r], p ++ [segment] <+: s) ↔
            r.head? = some segment ∨ ((index.root.nodeAt p).child segment).isSome = true := by
          rw [hs.child p segment, ← hnew]
          simp [or_and_right, exists_or, or_comm]
        rw [hiff]
        cases r with
        | nil => simp [child_insert_nil]
        | cons segment' r =>
          rw [child_insert]
          by_cases hsegment : segment' = segment <;> simp [hsegment]
      · rename_i hp
        rw [hs.child p segment]
        refine ⟨fun ⟨s, hs, h⟩ => ⟨s, List.mem_append_left _ hs, h⟩, fun ⟨s, hmem', h⟩ => ⟨s, ?_, h⟩⟩
        refine (List.mem_append.1 hmem').resolve_right fun hnew => hp ?_
        rw [← List.mem_singleton.1 hnew]
        exact (List.prefix_append p _).trans h
    · dsimp only
      rw [nodeAt_insert]
      split
      · rename_i hp
        obtain ⟨r, rfl⟩ := hp
        rw [List.drop_left]
        have hnew : ((index.root.nodeAt p).nodeAt r).path = none := by
          rw [← nodeAt_append, hs.path, if_neg hmem]
        rw [(pathsFrom_insert hnew).mem_iff, List.mem_cons, hs.below p s, List.mem_append,
          List.mem_singleton]
        constructor
        · rintro (rfl | ⟨hold, hp⟩)
          · exact ⟨.inr rfl, List.prefix_append p r⟩
          · exact ⟨.inl hold, hp⟩
        · rintro ⟨hold | rfl, hp⟩
          · exact .inr ⟨hold, hp⟩
          · exact .inl rfl
      · rename_i hp
        rw [hs.below p s, List.mem_append, List.mem_singleton]
        refine ⟨fun h => ⟨.inl h.1, h.2⟩, fun h => ⟨h.1.resolve_right ?_, h.2⟩⟩
        rintro rfl
        exact hp h.2

theorem Sound.addAll (paths : List ValuePath) :
    Sound (addAll paths) ∧ (addAll paths).paths = (JsSet.empty.addAll paths).items := by
  rw [PathPrefixIndex.addAll, JsSet.addAll]
  have hfold : ∀ (paths : List ValuePath) (index : PathPrefixIndex) (s : JsSet ValuePath),
      Sound index → index.paths = s.items →
      Sound (paths.foldl PathPrefixIndex.add index) ∧
        (paths.foldl PathPrefixIndex.add index).paths = (paths.foldl JsSet.add s).items := by
    intro paths
    induction paths with
    | nil => intro index s hs heq; exact ⟨hs, heq⟩
    | cons path paths ih =>
      intro index s hs heq
      obtain ⟨hadd, hpaths⟩ := hs.add path
      refine ih _ _ hadd ?_
      rw [hpaths, heq, JsSet.add]
      by_cases hmem : path ∈ s.items
      · rw [if_pos hmem, dif_pos (show path ∈ s from hmem)]
      · rw [if_neg hmem, dif_neg (show path ∉ s from hmem)]
  exact hfold paths PathPrefixIndex.empty .empty Sound.empty rfl

/-- A step down a concrete path: what lies on at the node, in its bucket, or at the child. -/
theorem meets_cases {includeDescendants : Bool} (hsegment : segment ≠ "*") (hp : p <+: s)
    (hmeets : meets includeDescendants (p ++ segment :: path) s = true) :
    s = p ∨ p ++ [("*" : JsString)] <+: s ∨ p ++ [segment] <+: s := by
  rcases prefix_cases hp with heq | hwild | ⟨other, hother, hnext⟩
  · exact .inl heq
  · exact .inr (.inl hwild)
  · right; right
    obtain ⟨r, rfl⟩ := hnext
    by_cases hne : other = segment
    · rw [← hne]
      exact List.prefix_append _ _
    · rw [meets, List.append_assoc, List.singleton_append, isPrefix_parted hne hother hsegment,
        isPrefix_parted (Ne.symm hne) hsegment hother] at hmeets
      simp at hmeets

/-- The child of a node is the node of the longer path. -/
theorem nodeAt_next {n next : PathPrefixNode} (hnext : (n.nodeAt p).child segment = some next) :
    next = n.nodeAt (p ++ [segment]) := by
  rw [nodeAt_child, hnext]
  rfl

theorem Sound.no_next (hs : Sound index) (hnext : (index.root.nodeAt p).child segment = none) :
    ∀ s ∈ index.paths, ¬p ++ [segment] <+: s := by
  intro s hmem hp
  have := (hs.child p segment).2 ⟨s, hmem, hp⟩
  rw [hnext] at this
  cases this

theorem Sound.mem_foundFrom (hs : Sound index) : ∀ {rest p : ValuePath} {found : JsSet ValuePath},
    ("*" : JsString) ∉ p ++ rest →
    (s ∈ foundFrom (p ++ rest) rest (index.root.nodeAt p) found ↔
      s ∈ found ∨ s ∈ index.paths ∧ p <+: s ∧ meets true (p ++ rest) s = true) := by
  intro rest
  induction rest with
  | nil =>
    intro p found _
    rw [foundFrom, JsSet.mem_addAll, hs.below, List.append_nil, or_comm]
    refine or_congr_right ⟨fun h => ⟨h.1, h.2, ?_⟩, fun h => ⟨h.1, h.2.1⟩⟩
    rw [meets, isPrefix_of_prefix h.2, Bool.and_true, Bool.or_true]
  | cons segment rest ih =>
    intro p found hconcrete
    have hpath : p ++ segment :: rest = (p ++ [segment]) ++ rest := by simp
    have hsegment : segment ≠ "*" := by
      rintro rfl
      simp at hconcrete
    have hp : ("*" : JsString) ∉ p := fun h => hconcrete (List.mem_append_left _ h)
    -- What is taken at the node and from its bucket.
    have hhere : s ∈ (found.addAll (index.root.nodeAt p).path.toList).addAll
        ((index.root.nodeAt p).wildcardPaths.filter (meets true (p ++ segment :: rest))) ↔
          s ∈ found ∨ s ∈ index.paths ∧ (s = p ∨ p ++ [("*" : JsString)] <+: s) ∧
            meets true (p ++ segment :: rest) s = true := by
      rw [JsSet.mem_addAll, JsSet.mem_addAll, List.mem_filter, hs.wildcard, hs.path]
      constructor
      · rintro (⟨⟨hmem, _, hwild⟩, hmeet⟩ | hhere | hfound)
        · exact .inr ⟨hmem, .inr hwild, hmeet⟩
        · split at hhere
          · rename_i hmem
            rw [Option.toList_some, List.mem_singleton] at hhere
            subst hhere
            refine .inr ⟨hmem, .inl rfl, ?_⟩
            rw [meets, isPrefix_of_prefix (List.prefix_append s _), Bool.true_or]
          · cases hhere
        · exact .inl hfound
      · rintro (hfound | ⟨hmem, rfl | hwild, hmeet⟩)
        · exact .inr (.inr hfound)
        · rw [if_pos hmem]
          exact .inr (.inl (by simp))
        · exact .inl ⟨⟨hmem, hp, hwild⟩, hmeet⟩
    rw [foundFrom]
    cases hnext : (index.root.nodeAt p).child segment with
    | none =>
      dsimp only
      rw [hhere]
      refine or_congr_right ⟨fun h => ⟨h.1, ?_, h.2.2⟩, fun h => ⟨h.1, ?_, h.2.2⟩⟩
      · rcases h.2.1 with rfl | hwild
        · exact List.prefix_refl s
        · exact (List.prefix_append p _).trans hwild
      · rcases meets_cases hsegment h.2.1 h.2.2 with heq | hwild | hbelow
        · exact .inl heq
        · exact .inr hwild
        · exact absurd hbelow (hs.no_next hnext s h.1)
    | some next =>
      dsimp only
      rw [nodeAt_next hnext, hpath, ih (by rwa [← hpath]), ← hpath, hhere]
      constructor
      · rintro ((hfound | ⟨hmem, hcase, hmeet⟩) | ⟨hmem, hbelow, hmeet⟩)
        · exact .inl hfound
        · refine .inr ⟨hmem, ?_, hmeet⟩
          rcases hcase with rfl | hwild
          · exact List.prefix_refl s
          · exact (List.prefix_append p _).trans hwild
        · exact .inr ⟨hmem, (List.prefix_append p _).trans hbelow, hmeet⟩
      · rintro (hfound | ⟨hmem, hbelow, hmeet⟩)
        · exact .inl (.inl hfound)
        · rcases meets_cases hsegment hbelow hmeet with heq | hwild | hbelow
          · exact .inl (.inr ⟨hmem, .inl heq, hmeet⟩)
          · exact .inl (.inr ⟨hmem, .inr hwild, hmeet⟩)
          · exact .inr ⟨hmem, hbelow, hmeet⟩

theorem Sound.matchesFrom_iff (hs : Sound index) (includeDescendants : Bool) :
    ∀ {rest p : ValuePath}, ("*" : JsString) ∉ p ++ rest →
      (matchesFrom (p ++ rest) includeDescendants rest (index.root.nodeAt p) = true ↔
        ∃ s ∈ index.paths, p <+: s ∧ s ≠ p ∧ meets includeDescendants (p ++ rest) s = true) := by
  intro rest
  induction rest with
  | nil =>
    intro p _
    have hchildren : (index.root.nodeAt p).children.isEmpty = false ↔
        ∃ s ∈ index.paths, p <+: s ∧ s ≠ p := by
      rw [Bool.eq_false_iff, Ne, List.isEmpty_iff, ← Ne, JsMap.isSome_getEntries]
      constructor
      · rintro ⟨segment, hsegment⟩
        obtain ⟨s, hmem, hp⟩ := (hs.child p segment).1 hsegment
        refine ⟨s, hmem, (List.prefix_append p _).trans hp, ?_⟩
        rintro rfl
        have := hp.length_le
        simp at this
      · rintro ⟨s, hmem, ⟨r, rfl⟩, hne⟩
        cases r with
        | nil => exact absurd (List.append_nil p) hne
        | cons segment r =>
          refine ⟨segment, (hs.child p segment).2 ⟨_, hmem, ?_⟩⟩
          rw [List.prefix_append_right_inj]
          simp
    have hbelow : ∀ s, p <+: s → s ≠ p → meets includeDescendants p s = includeDescendants := by
      intro s hp hne
      have habove : isPrefix s p = false := by
        rw [Bool.eq_false_iff]
        intro h
        exact hne (hp.eq_of_length_le (isPrefix_length h)).symm
      rw [meets, habove, isPrefix_of_prefix hp, Bool.false_or, Bool.and_true]
    rw [matchesFrom, List.append_nil, Bool.and_eq_true, Bool.not_eq_true', hchildren]
    constructor
    · rintro ⟨hinclude, s, hmem, hp, hne⟩
      exact ⟨s, hmem, hp, hne, (hbelow s hp hne).trans hinclude⟩
    · rintro ⟨s, hmem, hp, hne, hmeets⟩
      exact ⟨(hbelow s hp hne).symm.trans hmeets, s, hmem, hp, hne⟩
  | cons segment rest ih =>
    intro p hconcrete
    have hpath : p ++ segment :: rest = (p ++ [segment]) ++ rest := by simp
    have hsegment : segment ≠ "*" := by
      rintro rfl
      simp at hconcrete
    have hp : ("*" : JsString) ∉ p := fun h => hconcrete (List.mem_append_left _ h)
    have hbucket : (index.root.nodeAt p).wildcardPaths.any
        (meets includeDescendants (p ++ segment :: rest)) = true ↔ ∃ s ∈ index.paths,
          p ++ [("*" : JsString)] <+: s ∧ meets includeDescendants (p ++ segment :: rest) s = true := by
      rw [List.any_eq_true]
      constructor
      · rintro ⟨s, hmem, hmeets⟩
        obtain ⟨hmem, _, hwild⟩ := (hs.wildcard p s).1 hmem
        exact ⟨s, hmem, hwild, hmeets⟩
      · rintro ⟨s, hmem, hwild, hmeets⟩
        exact ⟨s, (hs.wildcard p s).2 ⟨hmem, hp, hwild⟩, hmeets⟩
    have hlonger : ∀ {s segment}, p ++ [segment] <+: s → p <+: s ∧ s ≠ p := by
      intro s segment h
      refine ⟨(List.prefix_append p _).trans h, ?_⟩
      rintro rfl
      have := h.length_le
      simp at this
    have hchild : (match (index.root.nodeAt p).child segment with
        | none => false
        | some next => next.path.isSome ||
            matchesFrom (p ++ segment :: rest) includeDescendants rest next) = true ↔
        ∃ s ∈ index.paths, p ++ [segment] <+: s ∧
          meets includeDescendants (p ++ segment :: rest) s = true := by
      cases hnext : (index.root.nodeAt p).child segment with
      | none =>
        constructor
        · intro h
          cases h
        · rintro ⟨s, hmem, hbelow, _⟩
          exact absurd hbelow (hs.no_next hnext s hmem)
      | some next =>
        dsimp only
        rw [Bool.or_eq_true, nodeAt_next hnext, hpath, ih (by rwa [← hpath]), hs.path]
        constructor
        · rintro (hthere | ⟨s, hmem, hbelow, _, hmeets⟩)
          · split at hthere
            · rename_i hmem
              refine ⟨_, hmem, List.prefix_refl _, ?_⟩
              rw [meets, isPrefix_of_prefix (List.prefix_append _ _), Bool.true_or]
            · cases hthere
          · exact ⟨s, hmem, hbelow, hmeets⟩
        · rintro ⟨s, hmem, hbelow, hmeets⟩
          by_cases heq : s = p ++ [segment]
          · subst heq
            rw [if_pos hmem]
            exact .inl rfl
          · exact .inr ⟨s, hmem, hbelow, heq, hmeets⟩
    rw [matchesFrom, Bool.or_eq_true, hbucket, hchild]
    constructor
    · rintro (⟨s, hmem, hwild, hmeets⟩ | ⟨s, hmem, hbelow, hmeets⟩)
      · exact ⟨s, hmem, (hlonger hwild).1, (hlonger hwild).2, hmeets⟩
      · exact ⟨s, hmem, (hlonger hbelow).1, (hlonger hbelow).2, hmeets⟩
    · rintro ⟨s, hmem, hp, hne, hmeets⟩
      rcases meets_cases hsegment hp hmeets with heq | hwild | hbelow
      · exact absurd heq hne
      · exact .inl ⟨s, hmem, hwild, hmeets⟩
      · exact .inr ⟨s, hmem, hbelow, hmeets⟩

/-- A query asks whether some path meets the one in question. -/
theorem Sound.matchesPath (hs : Sound index) (includeDescendants : Bool) (path : ValuePath) :
    index.matchesPath path includeDescendants =
      index.paths.any (meets includeDescendants path) := by
  have hroot : index.root.path = if [] ∈ index.paths then some [] else none := hs.path []
  have hempty : meets includeDescendants path [] = true := by rw [meets, isPrefix_nil, Bool.true_or]
  rw [PathPrefixIndex.matchesPath, hroot]
  by_cases hmem : [] ∈ index.paths
  · rw [if_pos hmem, Option.isSome_some, Bool.true_or, eq_comm, List.any_eq_true]
    exact ⟨[], hmem, hempty⟩
  · rw [if_neg hmem, Option.isSome_none, Bool.false_or]
    split
    · rfl
    · rename_i hconcrete
      rw [Bool.eq_iff_iff, List.any_eq_true]
      have hstar : ("*" : JsString) ∉ ([] : ValuePath) ++ path := by simpa using hconcrete
      have hiff := hs.matchesFrom_iff includeDescendants hstar
      refine hiff.trans ⟨fun ⟨s, hs, _, _, hmeets⟩ => ⟨s, hs, hmeets⟩, fun ⟨s, hs, hmeets⟩ => ?_⟩
      refine ⟨s, hs, List.nil_prefix, ?_, hmeets⟩
      rintro rfl
      exact hmem hs

theorem Sound.overlapping (hs : Sound index) (path : ValuePath) :
    (index.overlapping path).Perm (index.paths.filter (meets true path)) := by
  rw [PathPrefixIndex.overlapping]
  split
  · exact .refl _
  · rename_i hconcrete
    rw [List.perm_ext_iff_of_nodup (JsSet.nodup _) (hs.nodup.filter _)]
    intro s
    have hstar : ("*" : JsString) ∉ ([] : ValuePath) ++ path := by simpa using hconcrete
    have hiff : s ∈ foundFrom path path (index.root.nodeAt []) .empty ↔
        s ∈ JsSet.empty ∨ s ∈ index.paths ∧ [] <+: s ∧ meets true path s = true :=
      hs.mem_foundFrom hstar
    refine hiff.trans ?_
    rw [List.mem_filter]
    simp

end Holds

end PathPrefixIndex

end Cfc
