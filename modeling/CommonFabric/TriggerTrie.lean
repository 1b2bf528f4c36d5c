import CommonFabric.Checked
import CommonFabric.TriggerIndex

/-!
# What the trie of a document's reads holds

The reads of a node are the actions at each path below it. Registering a read adds it there
and nowhere else, taking it out takes out that one, and a write visits the reads whose paths
it is a prefix or an extension of.
-/

namespace Scheduler

variable {Action : Type}

namespace PathNode

/-- The actions whose reads end at a path below a node. -/
def reads : List JsString → PathNode Action → JsSet Action
  | [], node => node.actions
  | component :: rest, node => match child? component node.children with
    | none => .empty
    | some child => child.reads rest

/-- Every node is where its path says, and has one child a component. -/
inductive Placed : List JsString → PathNode Action → Prop where
  | mk {path : List JsString} {actions : JsSet Action}
      {children : List (JsString × PathNode Action)} :
      (children.map (·.1)).Nodup → (∀ c ∈ children, Placed (path ++ [c.1]) c.2) →
      Placed path (.mk path actions children)

variable {path walked : List JsString} {node : PathNode Action}
  {children : List (JsString × PathNode Action)} {action : Action}

theorem Placed.path_eq (h : Placed path node) :
    node.path = path := by
  cases h
  rfl

theorem placed_pathNode (path : List JsString) : Placed path (pathNode path : PathNode Action) :=
  .mk List.nodup_nil fun c hc => by cases hc

@[simp] theorem not_mem_reads_pathNode (path q : List JsString) (a : Action) :
    a ∉ (pathNode path).reads q := by
  cases q <;> exact JsSet.not_mem_empty a

theorem child?_setEntries (component component' : JsString) (child : PathNode Action)
    (children : List (JsString × PathNode Action)) :
    child? component' (JsMap.setEntries component child children) =
      if component = component' then some child else child? component' children :=
  JsMap.find?_setEntries component component' child children

theorem child?_filter (component component' : JsString)
    (children : List (JsString × PathNode Action)) :
    child? component' (children.filter fun c => c.1 ≠ component) =
      if component = component' then none else child? component' children := by
  rw [child?, List.find?_filter]
  split
  case isTrue h =>
    rw [Option.map_eq_none_iff, List.find?_eq_none]
    intro c _
    simp [h]
  case isFalse h =>
    rw [child?]
    congr 2
    funext c
    by_cases hc : c.1 = component'
    · simp [hc, Ne.symm h]
    · simp [hc]

theorem mem_of_child? {component : JsString}
    {child : PathNode Action} (h : child? component children = some child) :
    (component, child) ∈ children := by
  obtain ⟨c, hc, rfl⟩ := Option.map_eq_some_iff.1 h
  have hkey : c.1 = component := by simpa using List.find?_some hc
  exact hkey ▸ List.mem_of_find?_eq_some hc

theorem child?_of_mem
    (hnodup : (children.map (·.1)).Nodup) {c : JsString × PathNode Action} (hc : c ∈ children) :
    child? c.1 children = some c.2 := JsMap.get_of_mem (m := ⟨children, hnodup⟩) hc

theorem mem_reads_index [DecidableEq Action] (walked path : List JsString) (node : PathNode Action)
    (q : List JsString) (a : Action) :
    a ∈ (index action walked path node).reads q ↔ a ∈ node.reads q ∨ a = action ∧ q = path := by
  induction path generalizing walked node q with
  | nil =>
    obtain ⟨_, actions, children⟩ := node
    rw [index]
    cases q with
    | nil => simp [reads, PathNode.actions, or_comm]
    | cons c q => simp [reads, PathNode.children]
  | cons component rest ih =>
    obtain ⟨p, actions, children⟩ := node
    rw [index]
    cases q with
    | nil => simp [reads, PathNode.actions]
    | cons c q =>
      simp only [reads, PathNode.children, child?_setEntries]
      by_cases hc : component = c
      · subst hc
        rw [if_pos rfl]
        dsimp only
        rw [ih]
        cases hchild : child? component children with
        | none => simp
        | some child => simp
      · rw [if_neg hc]
        have hne : ¬(c :: q = component :: rest) := fun h => hc (List.head_eq_of_cons_eq h).symm
        simp [hne]

theorem placed_setEntries {component : JsString} {child : PathNode Action} {actions : JsSet Action}
    (h : Placed path (.mk path actions children)) (hchild : Placed (path ++ [component]) child) :
    Placed path (.mk path actions (JsMap.setEntries component child children)) := by
  cases h with
  | mk hnodup hplaced =>
    refine .mk (JsMap.nodup_setEntries component child hnodup) fun c hc => ?_
    rcases JsMap.mem_setEntries hc with rfl | hc
    · exact hchild
    · exact hplaced c hc

theorem placed_index [DecidableEq Action] (path : List JsString) (h : Placed walked node) :
    Placed walked (index action walked path node) := by
  induction path generalizing walked node with
  | nil =>
    cases h with
    | mk hnodup hplaced =>
      rw [index]
      exact .mk hnodup hplaced
  | cons component rest ih =>
    obtain ⟨p, actions, children⟩ := node
    obtain rfl : p = walked := h.path_eq
    rw [index]
    refine placed_setEntries h (ih ?_)
    cases hchild : child? component children with
    | none => exact placed_pathNode _
    | some child =>
      cases h with
      | mk _ hplaced => exact hplaced _ (mem_of_child? hchild)

theorem not_mem_reads_of_empty (hactions : ¬0 < node.actions.size)
    (hchildren : ¬0 < node.children.length) (q : List JsString) (a : Action) :
    a ∉ node.reads q := by
  have hnil : node.children = [] := List.length_eq_zero_iff.1 (by omega)
  have hempty : node.actions.items = [] := List.length_eq_zero_iff.1 (by
    have := hactions
    rw [JsSet.size] at this
    omega)
  cases q with
  | nil =>
    intro ha
    have ha' : a ∈ node.actions.items := ha
    rw [hempty] at ha'
    cases ha'
  | cons c q =>
    rw [reads, hnil]
    exact JsSet.not_mem_empty a

theorem mem_reads_unindex [DecidableEq Action] {registered : List JsString}
    {node' : PathNode Action} (h : unindex action registered path node = .ok node')
    (q : List JsString) (a : Action) :
    a ∈ node'.reads q ↔ a ∈ node.reads q ∧ ¬(a = action ∧ q = path) := by
  induction path generalizing node node' q with
  | nil =>
    obtain ⟨p, actions, children⟩ := node
    obtain rfl := Except.ok.inj h
    cases q with
    | nil => simp [reads, PathNode.actions, and_comm]
    | cons c q => simp [reads, PathNode.children]
  | cons component rest ih =>
    obtain ⟨p, actions, children⟩ := node
    rw [unindex] at h
    cases hchild : child? component children with
    | none =>
      rw [hchild] at h
      cases h
    | some child =>
      rw [hchild] at h
      obtain ⟨child', hunindex, h⟩ := Except.bind_ok_iff.1 h
      have hreads := fun q => ih hunindex q
      cases q with
      | nil =>
        split at h <;> (obtain rfl := Except.ok.inj h; simp [reads, PathNode.actions])
      | cons c q =>
        by_cases hc : component = c
        · subst hc
          have hleft : a ∈ node'.reads (component :: q) ↔ a ∈ child'.reads q := by
            split at h
            case isTrue =>
              obtain rfl := Except.ok.inj h
              simp only [reads, PathNode.children, child?_setEntries, if_pos]
            case isFalse hempty =>
              obtain rfl := Except.ok.inj h
              simp only [Bool.or_eq_true, decide_eq_true_eq, not_or] at hempty
              simp only [reads, PathNode.children, child?_filter, if_pos]
              exact iff_of_false (JsSet.not_mem_empty a)
                (not_mem_reads_of_empty hempty.1 hempty.2 q a)
          rw [hleft, hreads]
          simp [reads, PathNode.children, hchild]
        · have hleft : a ∈ node'.reads (c :: q) ↔ a ∈ (mk p actions children).reads (c :: q) := by
            split at h <;> obtain rfl := Except.ok.inj h
            · simp only [reads, PathNode.children, child?_setEntries, if_neg hc]
            · simp only [reads, PathNode.children, child?_filter, if_neg hc]
          have hne : ¬(c :: q = component :: rest) := fun h => hc (List.head_eq_of_cons_eq h).symm
          rw [hleft]
          simp [hne]

theorem placed_unindex [DecidableEq Action] {registered : List JsString}
    {node' : PathNode Action} (hplaced : Placed walked node)
    (h : unindex action registered path node = .ok node') : Placed walked node' := by
  induction path generalizing walked node node' with
  | nil =>
    cases hplaced with
    | mk hnodup hchildren =>
      obtain rfl := Except.ok.inj h
      exact .mk hnodup hchildren
  | cons component rest ih =>
    obtain ⟨p, actions, children⟩ := node
    obtain rfl : p = walked := hplaced.path_eq
    rw [unindex] at h
    cases hchild : child? component children with
    | none =>
      rw [hchild] at h
      cases h
    | some child =>
      rw [hchild] at h
      obtain ⟨child', hunindex, h⟩ := Except.bind_ok_iff.1 h
      cases hplaced with
      | mk hnodup hchildren =>
        have hchild' := ih (hchildren _ (mem_of_child? hchild)) hunindex
        split at h <;> obtain rfl := Except.ok.inj h
        · exact placed_setEntries (.mk hnodup hchildren) hchild'
        · exact .mk (hnodup.sublist (List.filter_sublist.map _)) fun c hc =>
            hchildren c (List.mem_filter.1 hc).1

/-- Some visit is at a path and has an action among its readers. -/
def Visited (visits : List (List JsString × JsSet Action)) (path : List JsString) (a : Action) :
    Prop := ∃ v ∈ visits, v.1 = path ∧ a ∈ v.2

theorem visited_append {visits visits' : List (List JsString × JsSet Action)} {a : Action} :
    Visited (visits ++ visits') path a ↔ Visited visits path a ∨ Visited visits' path a := by
  simp only [Visited, List.mem_append, or_and_right, exists_or]

theorem visited_visit {a : Action} :
    Visited node.visit path a ↔ node.path = path ∧ a ∈ node.actions := by
  rw [visit]
  split
  case isTrue => simp [Visited]
  case isFalse h =>
    have hempty : a ∉ node.actions := by
      intro ha
      exact h (List.length_pos_of_mem (JsSet.mem_items.2 ha))
    simp [Visited, hempty]

theorem append_cancel {q q' : List JsString} : walked ++ q = walked ++ q' ↔ q = q' :=
  List.append_right_inj walked

mutual
theorem visited_belowNode {walked : List JsString} : {node : PathNode Action} →
    Placed walked node → (q : List JsString) → (a : Action) →
    (Visited node.belowNode (walked ++ q) a ↔ a ∈ node.reads q)
  | .mk _ actions children, .mk hnodup hplaced, q, a => by
    rw [belowNode, visited_append, visited_visit,
      visited_belowNodes children hplaced q a]
    cases q with
    | nil => simp [reads, PathNode.path, PathNode.actions]
    | cons c q =>
      have hpath : ¬walked = walked ++ c :: q := fun h => by simpa using congrArg List.length h
      simp only [PathNode.path, hpath, false_and, false_or, reads, PathNode.children]
      constructor
      · rintro ⟨child, hchild, rest, heq, hmem⟩
        obtain ⟨rfl, rfl⟩ := List.cons.inj heq
        rw [child?_of_mem hnodup hchild]
        exact hmem
      · intro hmem
        cases hchild : child? c children with
        | none => simp [hchild] at hmem
        | some child =>
          rw [hchild] at hmem
          exact ⟨(c, child), mem_of_child? hchild, q, rfl, hmem⟩

theorem visited_belowNodes {walked : List JsString} :
    (children : List (JsString × PathNode Action)) →
    (∀ c ∈ children, Placed (walked ++ [c.1]) c.2) → (q : List JsString) → (a : Action) →
    (Visited (belowNodes children) (walked ++ q) a ↔
      ∃ c ∈ children, ∃ rest, q = c.1 :: rest ∧ a ∈ c.2.reads rest)
  | [], _, q, a => by simp [belowNodes, Visited]
  | (component, node) :: children, hplaced, q, a => by
    rw [belowNodes, visited_append,
      visited_belowNodes children (fun c hc => hplaced c (List.mem_cons_of_mem _ hc)) q a]
    have hnode := hplaced (component, node) List.mem_cons_self
    have hone : Visited node.belowNode (walked ++ q) a ↔
        ∃ rest, q = component :: rest ∧ a ∈ node.reads rest := by
      cases q with
      | nil =>
        refine iff_of_false ?_ (by simp)
        rintro ⟨v, hv, hpath, _⟩
        obtain ⟨rest, hrest⟩ := prefix_of_mem_belowNode hnode hv
        rw [hrest] at hpath
        simpa using congrArg List.length hpath
      | cons c q =>
        by_cases hc : c = component
        · subst hc
          have hbelow := visited_belowNode hnode q a
          rw [List.append_assoc] at hbelow
          rw [show walked ++ c :: q = walked ++ ([c] ++ q) from rfl, hbelow]
          simp
        · refine iff_of_false ?_ (by simp [hc])
          rintro ⟨v, hv, hpath, _⟩
          obtain ⟨rest, hrest⟩ := prefix_of_mem_belowNode hnode hv
          rw [hrest, List.append_assoc, append_cancel] at hpath
          exact hc (List.head_eq_of_cons_eq hpath).symm
    rw [hone]
    simp only [List.mem_cons, exists_eq_or_imp]
    exact or_comm

theorem prefix_of_mem_belowNode {walked : List JsString} : {node : PathNode Action} →
    Placed walked node → {v : List JsString × JsSet Action} → v ∈ node.belowNode →
    ∃ rest, v.1 = walked ++ rest
  | .mk _ actions children, .mk hnodup hplaced, v, hv => by
    rw [belowNode, List.mem_append] at hv
    rcases hv with hv | hv
    · rw [visit] at hv
      split at hv
      · obtain rfl := List.mem_singleton.1 hv
        exact ⟨[], (List.append_nil walked).symm⟩
      · cases hv
    · exact prefix_of_mem_belowNodes children hplaced hv

theorem prefix_of_mem_belowNodes {walked : List JsString} :
    (children : List (JsString × PathNode Action)) →
    (∀ c ∈ children, Placed (walked ++ [c.1]) c.2) → {v : List JsString × JsSet Action} →
    v ∈ belowNodes children → ∃ rest, v.1 = walked ++ rest
  | [], _, v, hv => by cases hv
  | (component, node) :: children, hplaced, v, hv => by
    rw [belowNodes, List.mem_append] at hv
    rcases hv with hv | hv
    · exact prefix_of_mem_belowNodes children (fun c hc => hplaced c (List.mem_cons_of_mem _ hc)) hv
    · obtain ⟨rest, hrest⟩ :=
        prefix_of_mem_belowNode (hplaced (component, node) List.mem_cons_self) hv
      exact ⟨component :: rest, by simpa using hrest⟩
end

theorem prefix_of_mem_forEachMatching
    (h : Placed walked node) (writePath : List JsString) {v : List JsString × JsSet Action}
    (hv : v ∈ forEachMatching writePath node) : ∃ rest, v.1 = walked ++ rest := by
  induction writePath generalizing walked node with
  | nil =>
    obtain ⟨p, actions, children⟩ := node
    rw [forEachMatching] at hv
    exact prefix_of_mem_belowNode h (by rw [belowNode]; exact hv)
  | cons component rest ih =>
    obtain ⟨p, actions, children⟩ := node
    obtain rfl : p = walked := h.path_eq
    rw [forEachMatching, List.mem_append] at hv
    rcases hv with hv | hv
    · exact prefix_of_mem_belowNode h (by rw [belowNode]; exact List.mem_append_left _ hv)
    · cases hchild : child? component children with
      | none => simp [hchild] at hv
      | some child =>
        rw [hchild] at hv
        cases h with
        | mk _ hplaced =>
          obtain ⟨rest', hrest⟩ := ih (hplaced _ (mem_of_child? hchild)) hv
          exact ⟨component :: rest', by simpa using hrest⟩

theorem arraysOverlap_cons (c d : JsString) (p q : List JsString) :
    arraysOverlap (c :: p) (d :: q) = (decide (c = d) && arraysOverlap p q) := by
  rw [Bool.eq_iff_iff, arraysOverlap_iff, Bool.and_eq_true, decide_eq_true_eq, arraysOverlap_iff,
    List.cons_prefix_cons, List.cons_prefix_cons]
  constructor
  · rintro (⟨hcd, h⟩ | ⟨hcd, h⟩)
    · exact ⟨hcd, .inl h⟩
    · exact ⟨hcd.symm, .inr h⟩
  · rintro ⟨hcd, h | h⟩
    · exact .inl ⟨hcd, h⟩
    · exact .inr ⟨hcd.symm, h⟩

/-- A write visits the reads whose paths it overlaps, each at its path, and no others. -/
theorem visited_forEachMatching
    (h : Placed walked node) (writePath q : List JsString) (a : Action) :
    Visited (forEachMatching writePath node) (walked ++ q) a ↔
      a ∈ node.reads q ∧ arraysOverlap q writePath = true := by
  induction writePath generalizing walked node q with
  | nil =>
    have hoverlap : arraysOverlap q [] = true := arraysOverlap_iff.2 (.inr List.nil_prefix)
    obtain ⟨p, actions, children⟩ := node
    have hbelow := visited_belowNode h q a
    rw [belowNode] at hbelow
    rw [forEachMatching, hoverlap, and_iff_left rfl]
    exact hbelow
  | cons component rest ih =>
    obtain ⟨p, actions, children⟩ := node
    obtain rfl : p = walked := h.path_eq
    rw [forEachMatching, visited_append, visited_visit]
    cases q with
    | nil =>
      have hoverlap : arraysOverlap [] (component :: rest) = true :=
        arraysOverlap_iff.2 (.inl List.nil_prefix)
      refine (or_iff_left ?_).trans ?_
      · rintro ⟨v, hv, hpath, _⟩
        cases hchild : child? component children with
        | none => simp [hchild] at hv
        | some child =>
          rw [hchild] at hv
          cases h with
          | mk _ hplaced =>
            obtain ⟨rest', hrest⟩ :=
              prefix_of_mem_forEachMatching (hplaced _ (mem_of_child? hchild)) rest hv
            rw [hpath] at hrest
            simpa using congrArg List.length hrest
      · simp [hoverlap, reads, PathNode.path, PathNode.actions]
    | cons c q =>
      have hself : ¬p = p ++ c :: q := fun h => by simpa using congrArg List.length h
      simp only [PathNode.path, hself, false_and, false_or, reads, PathNode.children,
        arraysOverlap_cons, Bool.and_eq_true, decide_eq_true_eq]
      cases hchild : child? component children with
      | none =>
        refine iff_of_false (by simp [Visited]) ?_
        rintro ⟨hmem, rfl, _⟩
        simp [hchild] at hmem
      | some child =>
        have hplaced : Placed (p ++ [component]) child := by
          cases h with
          | mk _ hplaced => exact hplaced _ (mem_of_child? hchild)
        by_cases hc : c = component
        · subst hc
          have hchild' := ih hplaced q
          rw [List.append_assoc] at hchild'
          rw [show p ++ c :: q = p ++ ([c] ++ q) from rfl, hchild', hchild]
          simp
        · refine iff_of_false ?_ fun hmem => hc hmem.2.1
          rintro ⟨v, hv, hpath, _⟩
          obtain ⟨rest', hrest⟩ := prefix_of_mem_forEachMatching hplaced rest hv
          rw [hpath, List.append_assoc, append_cancel] at hrest
          exact hc (List.head_eq_of_cons_eq hrest)

end PathNode

namespace EntityTriggers

variable [DecidableEq Action]

/-- The trie holds what the record of paths by action holds. -/
structure Holds (t : EntityTriggers Action) : Prop where
  placed : PathNode.Placed [] t.root
  reads : ∀ p a, a ∈ t.root.reads p ↔ p ∈ (t.pathsByAction.get a).getD []

theorem holds_empty : (empty : EntityTriggers Action).Holds :=
  ⟨PathNode.placed_pathNode [], fun p a => iff_of_false (PathNode.not_mem_reads_pathNode [] p a)
    List.not_mem_nil⟩

variable {action : Action} {paths : SortedAndCompactPaths} {root : PathNode Action}

theorem mem_reads_indexAll {p : List JsString} {a : Action} :
    a ∈ (indexAll action paths root).reads p ↔ a ∈ root.reads p ∨ a = action ∧ p ∈ paths := by
  induction paths generalizing root with
  | nil => simp [indexAll]
  | cons path paths ih =>
    have hcons : indexAll action (path :: paths) root =
        indexAll action paths (root.index action [] path) := rfl
    rw [hcons, ih, PathNode.mem_reads_index, List.mem_cons]
    tauto

theorem placed_indexAll (h : PathNode.Placed [] root) :
    PathNode.Placed [] (indexAll action paths root) := by
  induction paths generalizing root with
  | nil => exact h
  | cons path paths ih => exact ih (PathNode.placed_index path h)

theorem mem_reads_unindexAll
    {root' : PathNode Action} (h : unindexAll action paths root = .ok root')
    {p : List JsString} {a : Action} :
    a ∈ root'.reads p ↔ a ∈ root.reads p ∧ ¬(a = action ∧ p ∈ paths) := by
  induction paths generalizing root with
  | nil =>
    obtain rfl := Except.ok.inj h
    simp
  | cons path paths ih =>
    obtain ⟨root₁, hone, hrest⟩ := List.foldlM_cons_ok.1 h
    rw [ih hrest, PathNode.mem_reads_unindex hone, List.mem_cons]
    tauto

theorem placed_unindexAll {root' : PathNode Action} (hplaced : PathNode.Placed [] root)
    (h : unindexAll action paths root = .ok root') : PathNode.Placed [] root' := by
  induction paths generalizing root with
  | nil =>
    obtain rfl := Except.ok.inj h
    exact hplaced
  | cons path paths ih =>
    obtain ⟨root₁, hone, hrest⟩ := List.foldlM_cons_ok.1 h
    exact ih (PathNode.placed_unindex hplaced hone) hrest

theorem set_ok {t t' : EntityTriggers Action} (ht : t.Holds) (h : t.set action paths = .ok t') :
    t'.Holds ∧ ∀ a, t'.pathsByAction.get a =
      if a = action then some paths else t.pathsByAction.get a := by
  rw [set] at h
  have hget : ∀ a, (t.pathsByAction.set action paths).get a =
      if a = action then some paths else t.pathsByAction.get a := by
    intro a
    rw [JsMap.get_set]
    simp only [eq_comm]
  cases hprevious : t.pathsByAction.get action with
  | none =>
    rw [hprevious] at h
    obtain rfl := Except.ok.inj h
    refine ⟨⟨placed_indexAll ht.placed, fun p a => ?_⟩, hget⟩
    rw [mem_reads_indexAll, ht.reads, hget]
    by_cases ha : a = action
    · subst ha
      simp [hprevious]
    · simp [ha]
  | some previous =>
    rw [hprevious] at h
    dsimp only at h
    split at h
    case isTrue hsame =>
      obtain rfl := Except.ok.inj h
      refine ⟨ht, fun a => ?_⟩
      by_cases ha : a = action
      · subst ha
        rw [if_pos rfl, hprevious, hsame]
      · rw [if_neg ha]
    case isFalse =>
      obtain ⟨root, hunindex, h⟩ := Except.bind_ok_iff.1 h
      obtain rfl := Except.ok.inj h
      refine ⟨⟨placed_indexAll (placed_unindexAll ht.placed hunindex), fun p a => ?_⟩, hget⟩
      rw [mem_reads_indexAll, mem_reads_unindexAll hunindex, ht.reads, hget]
      by_cases ha : a = action
      · subst ha
        simp [hprevious]
      · simp [ha]

theorem delete_ok {t t' : EntityTriggers Action} (ht : t.Holds) (h : t.delete action = .ok t') :
    t'.Holds ∧ ∀ a, t'.pathsByAction.get a =
      if a = action then none else t.pathsByAction.get a := by
  rw [delete] at h
  cases hprevious : t.pathsByAction.get action with
  | none =>
    rw [hprevious] at h
    obtain rfl := Except.ok.inj h
    refine ⟨ht, fun a => ?_⟩
    by_cases ha : a = action
    · subst ha
      rw [if_pos rfl, hprevious]
    · rw [if_neg ha]
  | some previous =>
    rw [hprevious] at h
    obtain ⟨root, hunindex, h⟩ := Except.bind_ok_iff.1 h
    obtain rfl := Except.ok.inj h
    have hget : ∀ a, (t.pathsByAction.delete action).get a =
        if a = action then none else t.pathsByAction.get a := by
      intro a
      rw [JsMap.get_delete]
      simp only [eq_comm]
    refine ⟨⟨placed_unindexAll ht.placed hunindex, fun p a => ?_⟩, hget⟩
    rw [mem_reads_unindexAll hunindex, ht.reads, hget]
    by_cases ha : a = action
    · subst ha
      simp [hprevious]
    · simp [ha]

/-- A write visits the registered reads it overlaps. -/
theorem visited_forEachMatching {t : EntityTriggers Action} (h : t.Holds)
    (writePath p : List JsString) (a : Action) :
    PathNode.Visited (t.forEachMatching writePath) p a ↔
      p ∈ (t.pathsByAction.get a).getD [] ∧ arraysOverlap p writePath = true := by
  rw [← h.reads]
  exact PathNode.visited_forEachMatching h.placed writePath p a

end EntityTriggers

end Scheduler
