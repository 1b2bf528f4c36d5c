import CommonFabric.CfcClause
import CommonFabric.PathPrefixIndex

/-!
# An index of label entries

The entries of a label map that a read may consume are those above its path, at it, and, where the
read is recursive, below it. The index finds them along one branch of a trie of the entries, by
their segments ahead of the first `*`, and gives them in the order of the map.
-/

namespace Cfc

/-- `structural` is `"structure"`. -/
inductive LabelEntryOrigin where
  | declared
  | link
  | derived
  | structural
  | minted
  | externalIngest
  | labelMetadata
  deriving DecidableEq

inductive ObservationClass where
  | value
  | shape
  | enumerate
  | followRef
  | labelMetadata
  deriving DecidableEq

structure LabelMapEntry where
  path : ValuePath
  label : IFCLabel
  origin : Option LabelEntryOrigin
  observes : Option ObservationClass
  deriving DecidableEq

/-- An entry with its position in the label map. -/
structure IndexedEntry where
  entry : LabelMapEntry
  ordinal : Nat
  deriving DecidableEq

def IndexedEntry.path (e : IndexedEntry) : ValuePath := e.entry.path

/-- `descendants` are the entries at a node and below it. -/
inductive LabelNode where
  | node (children : List (JsString × LabelNode))
      (exact wildcard descendants : List IndexedEntry)

namespace LabelNode

def empty : LabelNode := .node [] [] [] []

def children : LabelNode → List (JsString × LabelNode)
  | .node children _ _ _ => children

def exact : LabelNode → List IndexedEntry
  | .node _ exact _ _ => exact

def wildcard : LabelNode → List IndexedEntry
  | .node _ _ wildcard _ => wildcard

def descendants : LabelNode → List IndexedEntry
  | .node _ _ _ descendants => descendants

def child (n : LabelNode) (segment : JsString) : Option LabelNode :=
  JsMap.getEntries segment n.children

/-- The node at a path; where there is none, an empty one. -/
def nodeAt : LabelNode → ValuePath → LabelNode
  | n, [] => n
  | n, segment :: rest => ((n.child segment).getD empty).nodeAt rest

/-- An entry is set down along its path, up to the first `*`. -/
def insert (indexed : IndexedEntry) : ValuePath → LabelNode → LabelNode
  | [], .node children exact wildcard descendants =>
    .node children (exact ++ [indexed]) wildcard (descendants ++ [indexed])
  | segment :: rest, .node children exact wildcard descendants =>
    if segment = "*" then .node children exact (wildcard ++ [indexed]) (descendants ++ [indexed])
    else
      .node (JsMap.setEntries segment
          (insert indexed rest ((JsMap.getEntries segment children).getD empty)) children)
        exact wildcard (descendants ++ [indexed])

end LabelNode

/-- `buildRoot` goes through these: the entries that are kept, by their positions. -/
def indexedEntries (keeps : LabelMapEntry → Bool) (entries : List LabelMapEntry) :
    List IndexedEntry :=
  (entries.zipIdx.map fun e => ⟨e.1, e.2⟩).filter fun e => keeps e.entry

def buildRoot (keeps : LabelMapEntry → Bool) (entries : List LabelMapEntry) : LabelNode :=
  (indexedEntries keeps entries).foldl (fun root e => root.insert e e.path) .empty

namespace ConsumedLabelIndex

/-- What is found from a node on, in no order. -/
def candidatesFrom (path : ValuePath) (includeDescendants : Bool) :
    ValuePath → LabelNode → List IndexedEntry
  | [], n => if includeDescendants then n.descendants else n.exact
  | segment :: rest, n =>
    if segment = "*" then
      if includeDescendants then n.descendants
      else n.exact ++ n.wildcard.filter (fun e => e.path.length ≤ path.length) ++
        n.children.flatMap fun e => e.2.exact
    else
      n.exact ++ n.wildcard.filter (fun e => meets includeDescendants path e.path) ++
        match n.child segment with
        | none => []
        | some child => candidatesFrom path includeDescendants rest child

def sortByOrdinal (entries : List IndexedEntry) : List IndexedEntry :=
  entries.insertionSort fun a b => a.ordinal ≤ b.ordinal

/-- A `*` that is the last segment is looked for in the trie, any other is compared. -/
def overlapping (root : LabelNode) (path : ValuePath) (includeDescendants : Bool) :
    List IndexedEntry :=
  if path = [] then if includeDescendants then root.descendants else root.exact
  else if ("*" : JsString) ∈ path.dropLast then
    root.descendants.filter fun e => meets includeDescendants path e.path
  else sortByOrdinal (candidatesFrom path includeDescendants path root)

section Nodes

variable {n : LabelNode} {p rest : ValuePath} {e : IndexedEntry} {segment : JsString}

@[simp] theorem nodeAt_empty : LabelNode.empty.nodeAt p = LabelNode.empty := by
  induction p with
  | nil => rfl
  | cons segment p ih => exact ih

theorem nodeAt_append : n.nodeAt (p ++ rest) = (n.nodeAt p).nodeAt rest := by
  induction p generalizing n with
  | nil => rfl
  | cons segment p ih => exact ih

theorem nodeAt_child : n.nodeAt (p ++ [segment]) = ((n.nodeAt p).child segment).getD .empty :=
  nodeAt_append

theorem child_insert (hsegment : segment ≠ "*") (segment' : JsString) :
    (LabelNode.insert e (segment :: rest) n).child segment' =
      if segment = segment' then
        some (LabelNode.insert e rest ((n.child segment).getD .empty))
      else n.child segment' := by
  obtain ⟨children, exact, wildcard, descendants⟩ := n
  rw [LabelNode.insert, if_neg hsegment]
  exact JsMap.getEntries_setEntries _ _ _ _

/-- An entry that stops at a node leaves its children as they were. -/
theorem child_insert_stop (hstop : rest = [] ∨ rest.head? = some "*") (segment : JsString) :
    (LabelNode.insert e rest n).child segment = n.child segment := by
  obtain ⟨children, exact, wildcard, descendants⟩ := n
  cases rest with
  | nil => rfl
  | cons other rest =>
    have hother : other = "*" := by simpa using hstop
    rw [LabelNode.insert, if_pos hother]
    rfl

/-- Along a concrete path an entry goes its own way, and nothing else is changed. -/
theorem nodeAt_insert : ∀ {n : LabelNode} {rest : ValuePath}, ("*" : JsString) ∉ p →
    (LabelNode.insert e rest n).nodeAt p =
      if p <+: rest then LabelNode.insert e (rest.drop p.length) (n.nodeAt p) else n.nodeAt p := by
  induction p with
  | nil =>
    intro n rest _
    simp [LabelNode.nodeAt]
  | cons segment p ih =>
    intro n rest hconcrete
    rw [List.mem_cons, not_or] at hconcrete
    rw [LabelNode.nodeAt, LabelNode.nodeAt]
    cases rest with
    | nil =>
      rw [child_insert_stop (.inl rfl), if_neg (by simp)]
    | cons other rest =>
      by_cases hother : other = "*"
      · rw [child_insert_stop (.inr (by rw [hother]; rfl)), if_neg]
        rw [List.cons_prefix_cons, hother]
        exact fun h => hconcrete.1 h.1.symm
      · rw [child_insert hother]
        by_cases hsegment : other = segment
        · subst hsegment
          rw [if_pos rfl, Option.getD_some, ih hconcrete.2]
          simp [List.cons_prefix_cons]
        · rw [if_neg hsegment, if_neg]
          rw [List.cons_prefix_cons]
          exact fun h => hsegment h.1.symm

theorem exact_insert : (LabelNode.insert e rest n).exact =
    if rest = [] then n.exact ++ [e] else n.exact := by
  obtain ⟨children, exact, wildcard, descendants⟩ := n
  cases rest with
  | nil => rfl
  | cons segment rest =>
    rw [LabelNode.insert]
    split <;> rfl

theorem wildcard_insert : (LabelNode.insert e rest n).wildcard =
    if rest.head? = some ("*" : JsString) then n.wildcard ++ [e] else n.wildcard := by
  obtain ⟨children, exact, wildcard, descendants⟩ := n
  cases rest with
  | nil => rfl
  | cons segment rest =>
    rw [LabelNode.insert]
    by_cases hsegment : segment = "*"
    · rw [if_pos hsegment, if_pos (by rw [hsegment]; rfl)]
      rfl
    · rw [if_neg hsegment, if_neg (by simpa using hsegment)]
      rfl

theorem descendants_insert :
    (LabelNode.insert e rest n).descendants = n.descendants ++ [e] := by
  obtain ⟨children, exact, wildcard, descendants⟩ := n
  cases rest with
  | nil => rfl
  | cons segment rest =>
    rw [LabelNode.insert]
    split <;> rfl

/-- The entries that end one concrete segment below a node. -/
def exactBelow (n : LabelNode) : List IndexedEntry := n.children.flatMap fun e => e.2.exact

theorem exactBelow_insert : (exactBelow (LabelNode.insert e rest n)).Perm
    ((if rest.length = 1 ∧ rest.head? ≠ some ("*" : JsString) then [e] else []) ++ exactBelow n) := by
  obtain ⟨children, exact, wildcard, descendants⟩ := n
  cases rest with
  | nil => exact .refl _
  | cons segment rest =>
    rw [LabelNode.insert]
    by_cases hsegment : segment = "*"
    · rw [if_pos hsegment, if_neg (by simp [hsegment])]
      exact .refl _
    · rw [if_neg hsegment]
      apply JsMap.flatMap_setEntries_perm
      have hold : (((JsMap.getEntries segment children).getD .empty).exact) =
          ((JsMap.getEntries segment children).map LabelNode.exact).getD [] := by
        cases JsMap.getEntries segment children <;> rfl
      rw [exact_insert, hold]
      cases rest with
      | nil =>
        rw [if_pos rfl, if_pos ⟨rfl, by simpa using hsegment⟩]
        exact List.perm_append_comm
      | cons other rest =>
        rw [if_neg (by simp), if_neg (by simp)]
        exact .refl _

end Nodes

section Holds

variable {root : LabelNode} {es : List IndexedEntry} {p path : ValuePath} {segment : JsString}

/-- One concrete segment below a path. -/
def isChildOf (p path : ValuePath) : Bool :=
  path.dropLast = p && path.getLast?.any fun segment => segment ≠ ("*" : JsString)

theorem isChildOf_append (p r : ValuePath) :
    isChildOf p (p ++ r) = true ↔ r.length = 1 ∧ r.head? ≠ some ("*" : JsString) := by
  cases r with
  | nil =>
    cases p with
    | nil => simp [isChildOf]
    | cons segment p =>
      have hne : (segment :: p).dropLast ≠ segment :: p := by
        intro h
        have := congrArg List.length h
        simp at this
      simp [isChildOf, hne]
  | cons segment r =>
    cases r with
    | nil => simp [isChildOf]
    | cons other r =>
      simp [isChildOf]

theorem prefix_of_isChildOf (h : isChildOf p path = true) : p <+: path := by
  rw [isChildOf, Bool.and_eq_true, decide_eq_true_eq] at h
  rw [← h.1]
  exact List.dropLast_prefix path

/-- At each concrete path stand the entries that belong there, in their order. -/
structure Sound (root : LabelNode) (es : List IndexedEntry) : Prop where
  exact : ∀ p, ("*" : JsString) ∉ p → (root.nodeAt p).exact = es.filter fun e => e.path = p
  wildcard : ∀ p, ("*" : JsString) ∉ p → (root.nodeAt p).wildcard =
    es.filter fun e => p ++ [("*" : JsString)] <+: e.path
  descendants : ∀ p, ("*" : JsString) ∉ p →
    (root.nodeAt p).descendants = es.filter fun e => p <+: e.path
  children : ∀ p, ("*" : JsString) ∉ p →
    (exactBelow (root.nodeAt p)).Perm (es.filter fun e => isChildOf p e.path)

theorem Sound.empty : Sound .empty [] := by
  refine ⟨fun p _ => ?_, fun p _ => ?_, fun p _ => ?_, fun p _ => ?_⟩
  · rw [nodeAt_empty]; rfl
  · rw [nodeAt_empty]; rfl
  · rw [nodeAt_empty]; rfl
  · rw [nodeAt_empty]; exact .refl _

theorem Sound.insert (hs : Sound root es) (e : IndexedEntry) :
    Sound (root.insert e e.path) (es ++ [e]) := by
  have hnext : ∀ (p r : ValuePath), p ++ [("*" : JsString)] <+: p ++ r ↔
      r.head? = some ("*" : JsString) := by
    intro p r
    rw [List.prefix_append_right_inj]
    cases r with
    | nil => simp
    | cons segment r => simp [List.cons_prefix_cons, eq_comm]
  refine ⟨fun p hp => ?_, fun p hp => ?_, fun p hp => ?_, fun p hp => ?_⟩
  · rw [nodeAt_insert hp, List.filter_append, ← hs.exact p hp]
    split
    · rename_i hstarts
      obtain ⟨r, hr⟩ := hstarts
      rw [exact_insert, ← hr, List.drop_left]
      cases r with
      | nil => simp [← hr]
      | cons segment r => simp [← hr]
    · rename_i hstarts
      have hne : e.path ≠ p := fun heq => hstarts (by rw [heq])
      simp [hne]
  · rw [nodeAt_insert hp, List.filter_append, ← hs.wildcard p hp]
    split
    · rename_i hstarts
      obtain ⟨r, hr⟩ := hstarts
      have hiff := hnext p r
      rw [hr] at hiff
      rw [wildcard_insert, ← hr, List.drop_left]
      by_cases hhead : r.head? = some ("*" : JsString)
      · simp [hhead, hiff.2 hhead]
      · have hnot : ¬p ++ [("*" : JsString)] <+: e.path := fun h => hhead (hiff.1 h)
        simp [hhead, hnot]
    · rename_i hstarts
      have hne : ¬p ++ [("*" : JsString)] <+: e.path :=
        fun h => hstarts ((List.prefix_append p _).trans h)
      simp [hne]
  · rw [nodeAt_insert hp, List.filter_append, ← hs.descendants p hp]
    split
    · rename_i hstarts
      rw [descendants_insert]
      simp [hstarts]
    · rename_i hstarts
      simp [hstarts]
  · rw [nodeAt_insert hp, List.filter_append]
    split
    · rename_i hstarts
      obtain ⟨r, hr⟩ := hstarts
      have hiff := isChildOf_append p r
      rw [hr] at hiff
      refine exactBelow_insert.trans (List.perm_append_comm.trans ((hs.children p hp).append ?_))
      rw [← hr, List.drop_left]
      by_cases hchild : isChildOf p e.path = true
      · simp [hchild, hiff.1 hchild]
      · rw [if_neg fun h => hchild (hiff.2 h)]
        simp [hchild]
    · rename_i hstarts
      have hne : isChildOf p e.path = false := by
        rw [Bool.eq_false_iff]
        exact fun h => hstarts (prefix_of_isChildOf h)
      simpa [hne] using hs.children p hp

theorem Sound.build (es : List IndexedEntry) :
    Sound (es.foldl (fun root e => root.insert e e.path) .empty) es := by
  have hfold : ∀ (rest es : List IndexedEntry) (root : LabelNode), Sound root es →
      Sound (rest.foldl (fun root e => root.insert e e.path) root) (es ++ rest) := by
    intro rest
    induction rest with
    | nil =>
      intro es root hs
      rwa [List.append_nil]
    | cons e rest ih =>
      intro es root hs
      rw [List.append_cons]
      exact ih _ _ (hs.insert e)
  exact hfold es [] .empty Sound.empty

/-- Where a node has no child, nothing goes on that way. -/
theorem Sound.no_child (hs : Sound root es) (hp : ("*" : JsString) ∉ p ++ [segment])
    (hchild : (root.nodeAt p).child segment = none) :
    (es.filter fun e => p ++ [segment] <+: e.path) = [] := by
  rw [← hs.descendants _ hp, nodeAt_child, hchild]
  rfl

/-- Two tests that no entry passes both split what passes either. -/
theorem filter_or_perm {α : Type} {f g h : α → Bool} {l : List α}
    (hor : ∀ x ∈ l, h x = (f x || g x)) (hdisjoint : ∀ x ∈ l, f x = true → g x = false) :
    (l.filter f ++ l.filter g).Perm (l.filter h) := by
  induction l with
  | nil => exact .refl _
  | cons x l ih =>
    have hrest := ih (fun y hy => hor y (List.mem_cons_of_mem _ hy))
      fun y hy => hdisjoint y (List.mem_cons_of_mem _ hy)
    have hx := hor x List.mem_cons_self
    cases hf : f x with
    | true =>
      rw [hf, Bool.true_or] at hx
      rw [List.filter_cons_of_pos hf, List.filter_cons_of_pos hx,
        List.filter_cons_of_neg (by rw [hdisjoint x List.mem_cons_self hf]; simp)]
      exact hrest.cons x
    | false =>
      rw [hf, Bool.false_or] at hx
      rw [List.filter_cons_of_neg (by rw [hf]; simp)]
      cases hg : g x with
      | true =>
        rw [List.filter_cons_of_pos hg, List.filter_cons_of_pos (hx.trans hg)]
        exact List.perm_middle.trans (hrest.cons x)
      | false =>
        rw [List.filter_cons_of_neg (by rw [hg]; simp), List.filter_cons_of_neg (by rw [hx, hg]; simp)]
        exact hrest

theorem not_prefix_append_self {p r : ValuePath} (hr : r ≠ []) : ¬p ++ r <+: p := by
  intro h
  have := h.length_le
  rw [List.length_append] at this
  have hpos := List.length_pos_of_ne_nil hr
  omega

/-- A path meets what is at a prefix of it. -/
theorem meets_above (includeDescendants : Bool) {s path : ValuePath} (h : s <+: path) :
    meets includeDescendants path s = true := by
  rw [meets, isPrefix_of_prefix h, Bool.true_or]

/-- A recursive read meets what is below it. -/
theorem meets_below {s path : ValuePath} (h : path <+: s) : meets true path s = true := by
  rw [meets, isPrefix_of_prefix h, Bool.and_true, Bool.or_true]

theorem meets_false_length {s path : ValuePath} (h : meets false path s = true) :
    s.length ≤ path.length := by
  rw [meets, Bool.false_and, Bool.or_false] at h
  exact isPrefix_length h

/-- At the end of a concrete path: what is there, or what is there and below it. -/
theorem Sound.end_perm (hs : Sound root es) (includeDescendants : Bool)
    (hp : ("*" : JsString) ∉ p) :
    (if includeDescendants then (root.nodeAt p).descendants else (root.nodeAt p).exact) =
      es.filter fun e => p <+: e.path && meets includeDescendants p e.path := by
  cases includeDescendants with
  | true =>
    rw [if_pos rfl, hs.descendants p hp]
    refine List.filter_congr fun e _ => ?_
    by_cases hbelow : p <+: e.path
    · simp [hbelow, meets_below hbelow]
    · simp [hbelow]
  | false =>
    rw [if_neg Bool.false_ne_true, hs.exact p hp]
    refine List.filter_congr fun e _ => ?_
    rw [Bool.eq_iff_iff, decide_eq_true_eq, Bool.and_eq_true, decide_eq_true_eq]
    constructor
    · intro heq
      rw [heq]
      exact ⟨List.prefix_refl p, meets_above false (List.prefix_refl p)⟩
    · rintro ⟨hbelow, hmeets⟩
      exact (hbelow.eq_of_length_le (meets_false_length hmeets)).symm

/-- At a trailing `*` without descendants: what is there, and what is one segment below. -/
theorem Sound.star_perm (hs : Sound root es) (hp : ("*" : JsString) ∉ p) :
    ((root.nodeAt p).exact ++
        (root.nodeAt p).wildcard.filter (fun e => e.path.length ≤ (p ++ [("*" : JsString)]).length) ++
        exactBelow (root.nodeAt p)).Perm
      (es.filter fun e => p <+: e.path && meets false (p ++ [("*" : JsString)]) e.path) := by
  rw [hs.exact p hp, hs.wildcard p hp, List.filter_filter]
  refine ((List.Perm.refl _).append (hs.children p hp)).trans ?_
  have hone : ∀ r : ValuePath, isPrefix r [("*" : JsString)] = decide (r.length ≤ 1) := by
    intro r
    cases r with
    | nil => rfl
    | cons segment r => cases r <;> simp [isPrefix]
  have hhere := filter_or_perm (l := es) (f := fun e => e.path = p)
    (g := fun e => e.path.length ≤ (p ++ [("*" : JsString)]).length &&
      p ++ [("*" : JsString)] <+: e.path) (fun _ _ => rfl) fun e _ heq => by
        rw [decide_eq_true_eq] at heq
        have hnot : ¬p ++ [("*" : JsString)] <+: e.path := by
          rw [heq]
          exact not_prefix_append_self (List.cons_ne_nil _ _)
        simp [hnot]
  refine (hhere.append_right _).trans (filter_or_perm (fun e _ => ?_) fun e _ hor => ?_)
  · rw [Bool.eq_iff_iff]
    by_cases hstarts : p <+: e.path
    · obtain ⟨r, hr⟩ := hstarts
      have hchild := isChildOf_append p r
      have hlength : (p ++ [("*" : JsString)]).length = p.length + 1 := by simp
      rw [← hr, meets, isPrefix_append, hone, Bool.false_and, Bool.or_false]
      simp only [Bool.and_eq_true, Bool.or_eq_true, decide_eq_true_eq, hchild, hlength,
        List.prefix_append_right_inj, List.length_append]
      cases r with
      | nil => simp
      | cons segment r =>
        by_cases hsegment : segment = "*" <;> simp [hsegment, List.cons_prefix_cons, eq_comm]
    · have hne : e.path ≠ p := fun heq => hstarts (by rw [heq])
      have hwild : ¬p ++ [("*" : JsString)] <+: e.path :=
        fun h => hstarts ((List.prefix_append p _).trans h)
      have hchild : isChildOf p e.path = false := by
        rw [Bool.eq_false_iff]
        exact fun h => hstarts (prefix_of_isChildOf h)
      simp [hstarts, hne, hwild, hchild]
  · rw [Bool.eq_false_iff]
    intro hchild
    obtain ⟨r, hr⟩ := prefix_of_isChildOf hchild
    rw [← hr, isChildOf_append] at hchild
    rw [← hr] at hor
    simp only [Bool.and_eq_true, Bool.or_eq_true, decide_eq_true_eq,
      List.prefix_append_right_inj] at hor
    cases r with
    | nil => simp at hchild
    | cons segment r =>
      rcases hor with heq | ⟨_, hwild⟩
      · simp at heq
      · rw [List.cons_prefix_cons] at hwild
        exact hchild.2 (by rw [← hwild.1]; rfl)

theorem Sound.candidates_perm (hs : Sound root es) (includeDescendants : Bool) :
    ∀ {rest p : ValuePath}, ("*" : JsString) ∉ (p ++ rest).dropLast → ("*" : JsString) ∉ p →
      (candidatesFrom (p ++ rest) includeDescendants rest (root.nodeAt p)).Perm
        (es.filter fun e => p <+: e.path && meets includeDescendants (p ++ rest) e.path) := by
  intro rest
  induction rest with
  | nil =>
    intro p _ hp
    rw [candidatesFrom, List.append_nil, hs.end_perm includeDescendants hp]
  | cons segment rest ih =>
    intro p hpath hp
    rw [candidatesFrom]
    by_cases hsegment : segment = "*"
    · -- The `*` is the last segment.
      subst hsegment
      have hrest : rest = [] := by
        cases rest with
        | nil => rfl
        | cons other rest => exact absurd (by simp) hpath
      subst hrest
      rw [if_pos rfl]
      cases includeDescendants with
      | false => exact hs.star_perm hp
      | true =>
        rw [if_pos rfl, hs.descendants p hp]
        refine .of_eq (List.filter_congr fun e _ => ?_)
        by_cases hbelow : p <+: e.path
        · obtain ⟨r, hr⟩ := hbelow
          have hmeets : meets true (p ++ [("*" : JsString)]) e.path = true := by
            rw [← hr, meets, isPrefix_append, isPrefix_append]
            cases r <;> simp [isPrefix]
          simp [hmeets]
        · simp [hbelow]
    · rw [if_neg hsegment]
      have hlonger : p ++ segment :: rest = (p ++ [segment]) ++ rest := by simp
      have hnext : ("*" : JsString) ∉ p ++ [segment] := by simp [hp, Ne.symm hsegment]
      have hbelow : (match (root.nodeAt p).child segment with
          | none => []
          | some child => candidatesFrom (p ++ segment :: rest) includeDescendants rest child).Perm
            (es.filter fun e => p ++ [segment] <+: e.path &&
              meets includeDescendants (p ++ segment :: rest) e.path) := by
        cases hchild : (root.nodeAt p).child segment with
        | none =>
          have hnone := List.filter_eq_nil_iff.1 (hs.no_child hnext hchild)
          rw [List.filter_eq_nil_iff.2]
          intro e he hboth
          rw [Bool.and_eq_true] at hboth
          exact hnone e he hboth.1
        | some child =>
          have hnode : child = root.nodeAt (p ++ [segment]) := by
            rw [nodeAt_child, hchild]
            rfl
          dsimp only
          rw [hnode, hlonger]
          exact ih (by rwa [← hlonger]) hnext
      rw [hs.exact p hp, hs.wildcard p hp, List.filter_filter]
      have hhere := filter_or_perm (l := es) (f := fun e => e.path = p)
        (g := fun e => meets includeDescendants (p ++ segment :: rest) e.path &&
          p ++ [("*" : JsString)] <+: e.path) (fun _ _ => rfl) fun e _ heq => by
            rw [decide_eq_true_eq] at heq
            have hnot : ¬p ++ [("*" : JsString)] <+: e.path := by
              rw [heq]
              exact not_prefix_append_self (List.cons_ne_nil _ _)
            simp [hnot]
      refine (hhere.append hbelow).trans (filter_or_perm (fun e _ => ?_) fun e _ hor => ?_)
      · rw [Bool.eq_iff_iff]
        simp only [Bool.and_eq_true, Bool.or_eq_true, decide_eq_true_eq]
        constructor
        · rintro ⟨hstarts, hmeets⟩
          rcases PathPrefixIndex.meets_cases hsegment hstarts hmeets with heq | hwild | hdown
          · exact .inl (.inl heq)
          · exact .inl (.inr ⟨hmeets, hwild⟩)
          · exact .inr ⟨hdown, hmeets⟩
        · rintro ((heq | ⟨hmeets, hwild⟩) | ⟨hdown, hmeets⟩)
          · rw [heq]
            exact ⟨List.prefix_refl p, meets_above _ (List.prefix_append p _)⟩
          · exact ⟨(List.prefix_append p _).trans hwild, hmeets⟩
          · exact ⟨(List.prefix_append p _).trans hdown, hmeets⟩
      · rw [Bool.eq_false_iff, Ne, Bool.and_eq_true, decide_eq_true_eq]
        rintro ⟨⟨r, hr⟩, _⟩
        simp only [Bool.and_eq_true, Bool.or_eq_true, decide_eq_true_eq] at hor
        rcases hor with heq | ⟨_, hwild⟩
        · rw [heq] at hr
          simp at hr
        · rw [← hr, List.append_assoc, List.prefix_append_right_inj, List.singleton_append,
            List.cons_prefix_cons] at hwild
          exact hsegment hwild.1.symm

theorem pairwise_indexedEntries (keeps : LabelMapEntry → Bool) (entries : List LabelMapEntry) :
    (indexedEntries keeps entries).Pairwise fun a b => a.ordinal < b.ordinal := by
  apply List.Pairwise.filter
  rw [List.pairwise_map, ← List.pairwise_map (f := fun e : LabelMapEntry × Nat => e.2),
    List.zipIdx_map_snd]
  exact List.pairwise_lt_range'

theorem overlapping_eq (keeps : LabelMapEntry → Bool) (entries : List LabelMapEntry)
    (path : ValuePath) (includeDescendants : Bool) :
    overlapping (buildRoot keeps entries) path includeDescendants =
      (indexedEntries keeps entries).filter fun e => meets includeDescendants path e.path := by
  have hs : Sound (buildRoot keeps entries) (indexedEntries keeps entries) := Sound.build _
  rw [overlapping]
  split
  · rename_i hempty
    subst hempty
    have hend := hs.end_perm includeDescendants (p := []) (by simp)
    refine hend.trans (List.filter_congr fun e _ => ?_)
    simp
  · split
    · have hroot := hs.descendants [] (by simp)
      change (buildRoot keeps entries).descendants = _ at hroot
      rw [hroot, List.filter_filter]
      simp
    · rename_i hstar
      have hnil : ("*" : JsString) ∉ ([] : ValuePath) := by simp
      have hinner : ("*" : JsString) ∉ (([] : ValuePath) ++ path).dropLast := hstar
      have hperm := hs.candidates_perm includeDescendants hinner hnil
      have hsorted := pairwise_indexedEntries keeps entries
      have hordinals : ((indexedEntries keeps entries).map (·.ordinal)).Nodup := by
        rw [List.Nodup, List.pairwise_map]
        exact hsorted.imp fun hlt => Nat.ne_of_lt hlt
      have hfound : (candidatesFrom path includeDescendants path (buildRoot keeps entries)).Perm
          ((indexedEntries keeps entries).filter fun e => meets includeDescendants path e.path) := by
        simpa [LabelNode.nodeAt] using hperm
      refine ((List.perm_insertionSort _ _).trans hfound).eq_of_pairwise ?_
        (List.pairwise_insertionSort _ _) ((hsorted.filter _).imp Nat.le_of_lt)
      intro a b ha hb hab hba
      have hmem := hfound.mem_iff.1 ((List.perm_insertionSort _ _).mem_iff.1 ha)
      exact List.inj_on_of_nodup_map hordinals (List.mem_filter.1 hmem).1 (List.mem_filter.1 hb).1
        (Nat.le_antisymm hab hba)

theorem map_entry_indexedEntries (keeps : LabelMapEntry → Bool) (entries : List LabelMapEntry) :
    (indexedEntries keeps entries).map (·.entry) = entries.filter keeps := by
  have hall : entries.zipIdx.map (·.1) = entries := List.zipIdx_map_fst 0 entries
  conv_rhs => rw [← hall]
  rw [indexedEntries, List.filter_map, List.map_map, List.filter_map]
  rfl

/-- What the index gives a read is what a scan of the kept entries gives. -/
theorem map_entry_overlapping (keeps : LabelMapEntry → Bool) (entries : List LabelMapEntry)
    (path : ValuePath) (includeDescendants : Bool) :
    (overlapping (buildRoot keeps entries) path includeDescendants).map (·.entry) =
      (entries.filter keeps).filter fun entry => meets includeDescendants path entry.path := by
  rw [overlapping_eq, ← map_entry_indexedEntries keeps, List.filter_map]
  rfl

end Holds

end ConsumedLabelIndex

/-- The distinct paths that were added, in the order of addition. -/
def distinctPaths (paths : List ValuePath) : List ValuePath := (JsSet.empty.addAll paths).items

theorem any_distinctPaths (paths : List ValuePath) (test : ValuePath → Bool) :
    (distinctPaths paths).any test = paths.any test := by
  rw [Bool.eq_iff_iff, List.any_eq_true, List.any_eq_true]
  simp [distinctPaths, JsSet.mem_items]

theorem path_indexes_scan :
    (∀ (paths : List ValuePath) (path : ValuePath),
      (PathPrefixIndex.addAll paths).hasPrefixOf path = paths.any (isPrefix · path) ∧
      (PathPrefixIndex.addAll paths).overlaps path =
        paths.any (fun source => isPrefix source path || isPrefix path source) ∧
      ((PathPrefixIndex.addAll paths).overlapping path).Perm
        ((distinctPaths paths).filter fun source => isPrefix source path || isPrefix path source)) ∧
    ∀ (keeps : LabelMapEntry → Bool) (entries : List LabelMapEntry) (path : ValuePath),
      ConsumedLabelIndex.overlapping (buildRoot keeps entries) path true =
          (indexedEntries keeps entries).filter
            (fun e => isPrefix e.path path || isPrefix path e.path) ∧
        ConsumedLabelIndex.overlapping (buildRoot keeps entries) path false =
          (indexedEntries keeps entries).filter fun e => isPrefix e.path path := by
  refine ⟨fun paths path => ?_, fun keeps entries path => ?_⟩
  · obtain ⟨hs, hpaths⟩ := PathPrefixIndex.Sound.addAll paths
    have habove : ∀ path, meets false path = (isPrefix · path) := by
      intro path
      funext source
      rw [meets, Bool.false_and, Bool.or_false]
    refine ⟨?_, ?_, ?_⟩
    · rw [PathPrefixIndex.hasPrefixOf, hs.matchesPath, hpaths, ← distinctPaths, any_distinctPaths,
        habove]
    · rw [PathPrefixIndex.overlaps, hs.matchesPath, hpaths, ← distinctPaths, any_distinctPaths]
      rfl
    · have hfound := hs.overlapping path
      rw [hpaths] at hfound
      exact hfound
  · rw [ConsumedLabelIndex.overlapping_eq, ConsumedLabelIndex.overlapping_eq]
    simp [meets]

/-- A concrete query gives the paths along its branch, not in the order they were added. -/
theorem path_index_unordered :
    (PathPrefixIndex.addAll [["a", "b"], ["a"]]).overlapping ["a", "b"] =
        ([["a"], ["a", "b"]] : List ValuePath) ∧
      (([["a", "b"], ["a"]] : List ValuePath).filter fun source =>
        isPrefix source ["a", "b"] || isPrefix ["a", "b"] source) =
        ([["a", "b"], ["a"]] : List ValuePath) := by
  decide +kernel

end Cfc
