import CommonFabric.CommitReads

/-!
# What the tree of a group's reads keeps

A write that conflicts with a read at a path conflicts with a recursive read above it, or with a
shallow one. So wherever the reads of a subtree are stated as one recursive read at its root, with
a shallow one beside it when any of them was shallow, no conflict is lost.
-/

namespace JsMap

variable {κ ν : Type} [DecidableEq κ]

theorem self_mem_setEntries (k : κ) (v : ν) (entries : List (κ × ν)) :
    (k, v) ∈ setEntries k v entries := by
  induction entries with
  | nil => exact List.mem_cons_self
  | cons e rest ih =>
    rw [setEntries]
    split
    · exact List.mem_cons_self
    · exact List.mem_cons_of_mem _ ih

/-- An entry stays, unless it is the one that is replaced. -/
theorem mem_setEntries_of_mem (k : κ) (v : ν) {entries : List (κ × ν)} {e : κ × ν}
    (h : e ∈ entries) :
    e ∈ setEntries k v entries ∨ entries.find? (fun e => e.1 = k) = some e := by
  induction entries with
  | nil => cases h
  | cons x rest ih =>
    rw [setEntries, List.find?_cons]
    by_cases hx : x.1 = k
    · rw [if_pos hx, decide_eq_true hx]
      rcases List.mem_cons.1 h with rfl | h
      · exact .inr rfl
      · exact .inl (List.mem_cons_of_mem _ h)
    · rw [if_neg hx, decide_eq_false hx]
      rcases List.mem_cons.1 h with rfl | h
      · exact .inl List.mem_cons_self
      · exact (ih h).imp_left (List.mem_cons_of_mem _)

end JsMap

namespace CommitReads

variable {Read : Type} [CommitRead Read]

/-- What happens to the reads at a path happens to those at a path above it, to the shallow or to
the recursive one. -/
structure Lifts (T : ValuePath → Bool → Prop) : Prop where
  recursive : ∀ above below : ValuePath, above <+: below → T below false → T above false
  shallow : ∀ above below : ValuePath, above <+: below → T below true →
    T above true ∨ T above false

/-- It happens to a read. -/
def Hits (T : ValuePath → Bool → Prop) (read : Read) : Prop := T (path read) (nonRecursive read)

namespace ReadPathNode

omit [CommitRead Read] in
/-- Induction on a tree, from all the children of a node. -/
theorem induct {P : ReadPathNode Read → Prop}
    (h : ∀ recursive shallow children, (∀ e ∈ children, P e.2) →
      P (.mk recursive shallow children)) (node : ReadPathNode Read) : P node := by
  refine @ReadPathNode.rec Read P (fun children => ∀ e ∈ children, P e.2) (fun e => P e.2) h
    ?_ ?_ ?_ node
  · intro e he
    cases he
  · intro e rest he hrest e' he'
    rcases List.mem_cons.1 he' with rfl | he'
    · exact he
    · exact hrest e' he'
  · intro segment node hnode
    exact hnode

/-- A read stands in a tree. -/
inductive Holds : ReadPathNode Read → Read → Prop where
  | recursive {read : Read} {shallow : Option Read} {children : List (JsString × ReadPathNode Read)} :
      Holds (.mk (some read) shallow children) read
  | shallow {read : Read} {recursive : Option Read}
      {children : List (JsString × ReadPathNode Read)} :
      Holds (.mk recursive (some read) children) read
  | child {read : Read} {recursive shallow : Option Read}
      {children : List (JsString × ReadPathNode Read)} {e : JsString × ReadPathNode Read} :
      e ∈ children → Holds e.2 read → Holds (.mk recursive shallow children) read

/-- Every read stands where its path says. -/
inductive Placed : ValuePath → ReadPathNode Read → Prop where
  | mk {here : ValuePath} {recursive shallow : Option Read}
      {children : List (JsString × ReadPathNode Read)} :
      (∀ read, recursive = some read → path read = here ∧ nonRecursive read = false) →
      (∀ read, shallow = some read → path read = here ∧ nonRecursive read = true) →
      (∀ e ∈ children, Placed (here ++ [e.1]) e.2) → Placed here (.mk recursive shallow children)

end ReadPathNode

open ReadPathNode

theorem placed_empty (here : ValuePath) : Placed here (.empty : ReadPathNode Read) := by
  refine .mk ?_ ?_ ?_
  · intro read h
    cases h
  · intro read h
    cases h
  · intro e he
    cases he

variable {read : Read} {below : ValuePath} {node root : ReadPathNode Read}

omit [CommitRead Read] in
theorem not_holds_empty : ¬Holds .empty read := by
  intro h
  cases h with
  | child he _ => cases he

theorem placed_getEntries {here : ValuePath} {children : List (JsString × ReadPathNode Read)}
    (h : ∀ e ∈ children, Placed (here ++ [e.1]) e.2) (segment : JsString) :
    Placed (here ++ [segment]) ((JsMap.getEntries segment children).getD .empty) := by
  rw [JsMap.getEntries]
  cases hfind : children.find? fun e => e.1 = segment with
  | none => exact placed_empty _
  | some e =>
    have hkey : e.1 = segment := by simpa using List.find?_some hfind
    exact hkey ▸ h e (List.mem_of_find?_eq_some hfind)

theorem ReadPathNode.Placed.add {here : ValuePath}
    (h : Placed here node) (hpath : path read = here ++ below) :
    Placed here (node.add read below) := by
  induction below generalizing here node with
  | nil =>
    rw [List.append_nil] at hpath
    obtain ⟨hrecursive, hshallow, hchildren⟩ := h
    rename_i recursive shallow children
    rw [ReadPathNode.add]
    split
    case isTrue hkind =>
      refine .mk hrecursive (fun read' hread => ?_) hchildren
      cases shallow with
      | none =>
        obtain rfl := Option.some.inj hread
        exact ⟨hpath, hkind⟩
      | some first => exact hshallow read' hread
    case isFalse hkind =>
      refine .mk (fun read' hread => ?_) hshallow hchildren
      cases recursive with
      | none =>
        obtain rfl := Option.some.inj hread
        exact ⟨hpath, Bool.eq_false_iff.2 hkind⟩
      | some first => exact hrecursive read' hread
  | cons segment rest ih =>
    obtain ⟨hrecursive, hshallow, hchildren⟩ := h
    rw [ReadPathNode.add]
    refine .mk hrecursive hshallow fun e he => ?_
    rcases JsMap.mem_setEntries he with rfl | he
    · exact ih (placed_getEntries hchildren segment) (by simpa using hpath)
    · exact hchildren e he

/-- What is in a tree stays there. -/
theorem ReadPathNode.Holds.add {read' : Read}
    (h : Holds node read') : Holds (node.add read below) read' := by
  induction below generalizing node with
  | nil =>
    obtain ⟨recursive, shallow, children⟩ := node
    rw [ReadPathNode.add]
    split
    · cases h with
      | recursive => exact .recursive
      | shallow => exact .shallow
      | child he hchild => exact .child he hchild
    · cases h with
      | recursive => exact .recursive
      | shallow => exact .shallow
      | child he hchild => exact .child he hchild
  | cons segment rest ih =>
    obtain ⟨recursive, shallow, children⟩ := node
    rw [ReadPathNode.add]
    cases h with
    | recursive => exact .recursive
    | shallow => exact .shallow
    | child he hchild =>
      rcases JsMap.mem_setEntries_of_mem segment
        (((JsMap.getEntries segment children).getD .empty).add read rest) he with hkept | hfound
      · exact .child hkept hchild
      · refine .child (JsMap.self_mem_setEntries segment _ children) ?_
        rw [JsMap.getEntries, hfound]
        exact ih hchild

/-- The tree has a read of the kind at the path of one that was set down. -/
theorem holds_add {here : ValuePath}
    (hplaced : Placed here node) (hpath : path read = here ++ below) :
    ∃ first, Holds (node.add read below) first ∧ path first = path read ∧
      nonRecursive first = nonRecursive read := by
  induction below generalizing here node with
  | nil =>
    rw [List.append_nil] at hpath
    obtain ⟨hrecursive, hshallow, hchildren⟩ := hplaced
    rename_i recursive shallow children
    rw [ReadPathNode.add]
    split
    case isTrue hkind =>
      cases shallow with
      | none => exact ⟨read, .shallow, rfl, rfl⟩
      | some first =>
        obtain ⟨hfirst, hnon⟩ := hshallow first rfl
        exact ⟨first, .shallow, hfirst.trans hpath.symm, hnon.trans hkind.symm⟩
    case isFalse hkind =>
      cases recursive with
      | none => exact ⟨read, .recursive, rfl, rfl⟩
      | some first =>
        obtain ⟨hfirst, hnon⟩ := hrecursive first rfl
        exact ⟨first, .recursive, hfirst.trans hpath.symm,
          hnon.trans (Bool.eq_false_iff.2 hkind).symm⟩
  | cons segment rest ih =>
    obtain ⟨hrecursive, hshallow, hchildren⟩ := hplaced
    rename_i recursive shallow children
    obtain ⟨first, hholds, hfirst⟩ :=
      ih (placed_getEntries hchildren segment) (by simpa using hpath)
    rw [ReadPathNode.add]
    exact ⟨first, .child (JsMap.self_mem_setEntries segment _ children) hholds, hfirst⟩

theorem holds_of_add {read' : Read}
    (h : Holds (node.add read below) read') : read' = read ∨ Holds node read' := by
  induction below generalizing node with
  | nil =>
    obtain ⟨recursive, shallow, children⟩ := node
    rw [ReadPathNode.add] at h
    split at h
    · cases h with
      | recursive => exact .inr .recursive
      | shallow =>
        cases shallow with
        | none => exact .inl rfl
        | some first => exact .inr .shallow
      | child he hchild => exact .inr (.child he hchild)
    · cases h with
      | recursive =>
        cases recursive with
        | none => exact .inl rfl
        | some first => exact .inr .recursive
      | shallow => exact .inr .shallow
      | child he hchild => exact .inr (.child he hchild)
  | cons segment rest ih =>
    obtain ⟨recursive, shallow, children⟩ := node
    rw [ReadPathNode.add] at h
    cases h with
    | recursive => exact .inr .recursive
    | shallow => exact .inr .shallow
    | child he hchild =>
      rcases JsMap.mem_setEntries he with rfl | he
      · rcases ih hchild with rfl | hheld
        · exact .inl rfl
        · right
          rw [JsMap.getEntries] at hheld
          cases hfind : children.find? fun e => e.1 = segment with
          | none =>
            rw [hfind] at hheld
            exact absurd hheld not_holds_empty
          | some e =>
            rw [hfind] at hheld
            exact .child (List.mem_of_find?_eq_some hfind) hheld
      · exact .inr (.child he hchild)

def addReads (reads : List Read) (root : ReadPathNode Read) : ReadPathNode Read :=
  reads.foldl (fun root read => root.add read (path read)) root

theorem placed_addReads (reads : List Read) (h : Placed [] root) :
    Placed [] (addReads reads root) := by
  induction reads generalizing root with
  | nil => exact h
  | cons read reads ih => exact ih (h.add (List.nil_append _).symm)

theorem holds_of_addReads {reads : List Read}
    (h : Holds (addReads reads root) read) : read ∈ reads ∨ Holds root read := by
  induction reads generalizing root with
  | nil => exact .inr h
  | cons first reads ih =>
    rcases ih h with hmem | hroot
    · exact .inl (List.mem_cons_of_mem _ hmem)
    · rcases holds_of_add hroot with rfl | hroot
      · exact .inl List.mem_cons_self
      · exact .inr hroot

theorem ReadPathNode.Holds.addReads {reads : List Read}
    (h : Holds root read) : Holds (addReads reads root) read := by
  induction reads generalizing root with
  | nil => exact h
  | cons first reads ih => exact ih h.add

theorem addReads_holds {reads : List Read} (hplaced : Placed [] root) (h : read ∈ reads) :
    ∃ first, Holds (addReads reads root) first ∧ path first = path read ∧
      nonRecursive first = nonRecursive read := by
  induction reads generalizing root with
  | nil => cases h
  | cons next reads ih =>
    rcases List.mem_cons.1 h with rfl | h
    · obtain ⟨first, hholds, hfirst⟩ := holds_add hplaced (List.nil_append _).symm
      exact ⟨first, hholds.addReads, hfirst⟩
    · exact ih (hplaced.add (List.nil_append _).symm) h

section Compaction

variable {T : ValuePath → Bool → Prop} {observed above : Bool} {here top : ValuePath}
  {value : FabricValue}

/-- The reads of a node are those below it, with its own, or one statement of them. -/
theorem stateNode_cases (recursive shallow : Option Read) (below : List Read × Nat)
    (container : Option FabricValue) :
    (recursive = none ∧ shallow = none ∧
      (stateNode observed recursive shallow below container above).1 = below.1) ∨
    (stateNode observed recursive shallow below container above).1 =
      below.1 ++ (if above then [] else recursive.toList) ++ shallow.toList ∨
    ∃ read, recursive.or shallow = some read ∧
      (stateNode observed recursive shallow below container above).1 =
        (shallow.or (if below.1.any nonRecursive then some (restate read (path read) true)
          else none)).toList ++ if above then [] else [restate read (path read) false] := by
  rw [stateNode]
  cases hread : recursive.or shallow with
  | none =>
    obtain ⟨hrecursive, hshallow⟩ := Option.or_eq_none_iff.1 hread
    exact .inl ⟨hrecursive, hshallow, rfl⟩
  | some read =>
    right
    dsimp only
    generalize (recursive.isSome || observed && (container.isNone ||
      decide (below.2 = (container.map memberCount).getD 0))) = readInFull
    split
    · exact .inr ⟨read, rfl, rfl⟩
    · exact .inl rfl

omit [CommitRead Read] in
theorem or_of_or {a b : Option Read} {read : Read} (h : a.or b = some read) :
    a = some read ∨ b = some read := by
  rw [Option.or_eq_some_iff] at h
  exact h.imp_right fun h => h.2

theorem mem_compactChildren {children : List (JsString × ReadPathNode Read)}
    {container : Option FabricValue} {e : Read}
    (h : e ∈ (compactChildren observed children container above).1) :
    ∃ c ∈ children, ∃ value, e ∈ (compact observed c.2 value above).1 := by
  induction children with
  | nil =>
    rw [compactChildren] at h
    cases h
  | cons c rest ih =>
    obtain ⟨segment, node⟩ := c
    rw [compactChildren] at h
    rcases List.mem_append.1 h with hhere | hothers
    · exact ⟨_, List.mem_cons_self, _, hhere⟩
    · obtain ⟨c, hc, hvalue⟩ := ih hothers
      exact ⟨c, List.mem_cons_of_mem _ hc, hvalue⟩

theorem compactChildren_mem {children : List (JsString × ReadPathNode Read)}
    {c : JsString × ReadPathNode Read} (hc : c ∈ children) (container : Option FabricValue) :
    ∃ value, ∀ e ∈ (compact observed c.2 value above).1,
      e ∈ (compactChildren observed children container above).1 := by
  induction children with
  | nil => cases hc
  | cons first rest ih =>
    obtain ⟨segment, node⟩ := first
    rw [compactChildren]
    rcases List.mem_cons.1 hc with rfl | hc
    · exact ⟨_, fun e he => List.mem_append_left _ he⟩
    · obtain ⟨value, hvalue⟩ := ih hc
      exact ⟨value, fun e he => List.mem_append_right _ (hvalue e he)⟩

/-- What the compaction of a node states is below the node, and of a basis that was read there. -/
theorem compact_from {node : ReadPathNode Read} (h : Placed here node) :
    ∀ e ∈ (compact observed node value above).1,
      here <+: path e ∧ ∃ read, Holds node read ∧ basis e = basis read := by
  induction node using ReadPathNode.induct generalizing here value above with
  | h recursive shallow children ih =>
    obtain ⟨hrecursive, hshallow, hchildren⟩ := h
    have hbelow : ∀ container above, ∀ e ∈ (compactChildren observed children container above).1,
        here <+: path e ∧ ∃ read, Holds (.mk recursive shallow children) read ∧
          basis e = basis read := by
      intro container above e he
      obtain ⟨c, hc, value, he⟩ := mem_compactChildren he
      obtain ⟨hpath, read, hholds, hbasis⟩ := ih c hc (hchildren c hc) e he
      exact ⟨(List.prefix_append _ _).trans hpath, read, .child hc hholds, hbasis⟩
    have hown : ∀ read, recursive = some read ∨ shallow = some read →
        path read = here ∧ Holds (.mk recursive shallow children) read := by
      intro read hread
      rcases hread with rfl | rfl
      · exact ⟨(hrecursive read rfl).1, .recursive⟩
      · exact ⟨(hshallow read rfl).1, .shallow⟩
    have hkept : ∀ read, recursive = some read ∨ shallow = some read →
        here <+: path read ∧ ∃ read', Holds (.mk recursive shallow children) read' ∧
          basis read = basis read' := by
      intro read hread
      obtain ⟨hpath, hholds⟩ := hown read hread
      exact ⟨hpath ▸ List.prefix_rfl, read, hholds, rfl⟩
    intro e he
    rw [compact] at he
    generalize (if isKeyableObjectOrArray value then some value else none) = container at he
    rcases stateNode_cases recursive shallow _ _ with ⟨-, -, hout⟩ | hout | ⟨read, hread, hout⟩
    · rw [hout] at he
      exact hbelow _ _ e he
    · rw [hout, List.mem_append, List.mem_append] at he
      rcases he with (he | he) | he
      · exact hbelow _ _ e he
      · split at he
        · cases he
        · exact hkept e (.inl (Option.mem_toList.1 he))
      · exact hkept e (.inr (Option.mem_toList.1 he))
    · obtain ⟨hpath, hholds⟩ := hown read (or_of_or hread)
      have hstated : ∀ kind, here <+: path (restate read (path read) kind) ∧
          ∃ read', Holds (.mk recursive shallow children) read' ∧
            basis (restate read (path read) kind) = basis read' := fun kind =>
        ⟨by rw [CommitRead.path_restate, hpath], read, hholds, CommitRead.basis_restate ..⟩
      rw [hout, List.mem_append] at he
      rcases he with he | he
      · rcases or_of_or (Option.mem_toList.1 he) with he | he
        · exact hkept e (.inr he)
        · split at he
          · exact Option.some.inj he ▸ hstated true
          · cases he
      · split at he
        · cases he
        · exact List.mem_singleton.1 he ▸ hstated false

/-- A hit on a read of a tree is a hit on a read that is stated, or on the recursive read above. -/
theorem compact_covers (hT : Lifts T) {node : ReadPathNode Read} (hplaced : Placed here node)
    (hover : above = true → top <+: here) {read : Read} (hread : Holds node read)
    (hhit : Hits T read) :
    (∃ e ∈ (compact observed node value above).1, Hits T e) ∨ above = true ∧ T top false := by
  induction node using ReadPathNode.induct generalizing here top value above with
  | h recursive shallow children ih =>
    obtain ⟨hrecursive, hshallow, hchildren⟩ := hplaced
    rw [compact]
    generalize (if isKeyableObjectOrArray value then some value else none) = container
    have hbelow : ∀ e ∈ (compactChildren observed children container
        (above || recursive.isSome)).1, here <+: path e := by
      intro e he
      obtain ⟨c, hc, value, he⟩ := mem_compactChildren he
      exact (List.prefix_append _ _).trans (compact_from (hchildren c hc) e he).1
    -- a read below is hit, or the recursive read here or above, or the shallow read here
    have hwhere : (∃ e ∈ (compactChildren observed children container
          (above || recursive.isSome)).1, Hits T e) ∨
        (recursive.isSome = true ∧ T here false ∨ above = true ∧ T top false) ∨
        ∃ read, shallow = some read ∧ T here true := by
      cases hread with
      | recursive =>
        obtain ⟨hpath, hkind⟩ := hrecursive read rfl
        rw [Hits, hpath, hkind] at hhit
        exact .inr (.inl (.inl ⟨rfl, hhit⟩))
      | shallow =>
        obtain ⟨hpath, hkind⟩ := hshallow read rfl
        rw [Hits, hpath, hkind] at hhit
        exact .inr (.inr ⟨read, rfl, hhit⟩)
      | @child _ _ _ _ c hc hheld =>
        obtain ⟨value, hvalue⟩ : ∃ value,
            ∀ e ∈ (compact observed c.2 value (above || recursive.isSome)).1,
              e ∈ (compactChildren observed children container (above || recursive.isSome)).1 :=
          compactChildren_mem hc container
        have hcover : (above || recursive.isSome) = true →
            (if above then top else here) <+: here ++ [c.1] := by
          intro _
          refine List.IsPrefix.trans ?_ (List.prefix_append _ _)
          split
          case isTrue h => exact hover h
          case isFalse => exact List.prefix_rfl
        rcases ih c hc (hchildren c hc) hcover hheld with ⟨e, he, hhit⟩ | ⟨habove, hhit⟩
        · exact .inl ⟨e, hvalue e he, hhit⟩
        · cases above with
          | true => exact .inr (.inl (.inr ⟨rfl, hhit⟩))
          | false => exact .inr (.inl (.inl ⟨habove, hhit⟩))
    revert hwhere hbelow
    generalize hlist : compactChildren observed children container (above || recursive.isSome) =
      below
    intro hbelow hwhere
    rcases stateNode_cases recursive shallow below container with
      ⟨hnone, hnone', hout⟩ | hout | ⟨stated, hstated, hout⟩
    · rw [hout]
      rcases hwhere with hhit | (⟨hsome, -⟩ | habove) | ⟨read, hsome, -⟩
      · exact .inl hhit
      · rw [hnone] at hsome
        cases hsome
      · exact .inr habove
      · rw [hnone'] at hsome
        cases hsome
    · rw [hout]
      rcases hwhere with ⟨e, he, hhit⟩ | (⟨hsome, hdeep⟩ | habove) | ⟨read, rfl, hflat⟩
      · exact .inl ⟨e, List.mem_append_left _ (List.mem_append_left _ he), hhit⟩
      · cases above with
        | true => exact .inr ⟨rfl, hT.recursive top here (hover rfl) hdeep⟩
        | false =>
          obtain ⟨read, rfl⟩ := Option.isSome_iff_exists.1 hsome
          obtain ⟨hpath, hkind⟩ := hrecursive read rfl
          refine .inl ⟨read, by simp, ?_⟩
          rw [Hits, hpath, hkind]
          exact hdeep
      · exact .inr habove
      · obtain ⟨hpath, hkind⟩ := hshallow read rfl
        refine .inl ⟨read, by simp, ?_⟩
        rw [Hits, hpath, hkind]
        exact hflat
    · rw [hout]
      have hpath : path stated = here := by
        rcases or_of_or hstated with h | h
        · exact (hrecursive stated h).1
        · exact (hshallow stated h).1
      have hstate : ∀ kind, T here kind → Hits T (restate stated (path stated) kind) := by
        intro kind hhit
        rw [Hits, CommitRead.path_restate, CommitRead.nonRecursive_restate, hpath]
        exact hhit
      have hdeep : T here false → (∃ e ∈ (shallow.or (if below.1.any nonRecursive then
            some (restate stated (path stated) true) else none)).toList ++
          (if above then [] else [restate stated (path stated) false]), Hits T e) ∨
          above = true ∧ T top false := by
        intro hhit
        cases above with
        | true => exact .inr ⟨rfl, hT.recursive top here (hover rfl) hhit⟩
        | false => exact .inl ⟨_, by simp, hstate false hhit⟩
      have hflat : ∀ read, shallow = some read → T here true → Hits T read := by
        intro read hread hhit
        obtain ⟨hpath, hkind⟩ := hshallow read hread
        rw [Hits, hpath, hkind]
        exact hhit
      rcases hwhere with ⟨e, he, hhit⟩ | (⟨-, hhit⟩ | habove) | ⟨read, rfl, hhit⟩
      · cases hkind : nonRecursive e with
        | false =>
          rw [Hits, hkind] at hhit
          exact hdeep (hT.recursive here (path e) (hbelow e he) hhit)
        | true =>
          rw [Hits, hkind] at hhit
          rcases hT.shallow here (path e) (hbelow e he) hhit with hhit | hhit
          · have hany : below.1.any nonRecursive = true := List.any_eq_true.2 ⟨e, he, hkind⟩
            rw [if_pos hany]
            cases shallow with
            | none => exact .inl ⟨_, by simp, hstate true hhit⟩
            | some read => exact .inl ⟨read, by simp, hflat read rfl hhit⟩
          · exact hdeep hhit
      · exact hdeep hhit
      · exact .inr habove
      · exact .inl ⟨read, by simp, hflat read rfl hhit⟩

end Compaction

end CommitReads
