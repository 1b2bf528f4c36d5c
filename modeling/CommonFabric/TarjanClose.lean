import CommonFabric.Tarjan

/-!
# Strongly connected components: a component is closed

When a node's two numbers agree and none of its edges is left, what lies above it on the stack is
its component: no edge leaves it but for components that are closed already.
-/

namespace Tarjan

variable {α : Type} [DecidableEq α] {nodes : List α} {deps : α → List α}

namespace State

variable {s : State α}

/-- What is taken off the stack ends with the node, and the node is nowhere before. -/
theorem popUntil_eq {v : α} {stack : List α} (h : v ∈ stack) :
    (popUntil v stack).1 ++ (popUntil v stack).2 = stack ∧
      ∃ above, (popUntil v stack).1 = above ++ [v] ∧ v ∉ above := by
  induction stack with
  | nil => cases h
  | cons member rest ih =>
    rw [popUntil]
    split
    · rename_i heq
      exact ⟨rfl, [], by rw [heq]; rfl, List.not_mem_nil⟩
    · rename_i hne
      obtain ⟨happend, above, habove, hnot⟩ := ih (List.mem_of_ne_of_mem (Ne.symm hne) h)
      refine ⟨congrArg _ happend, member :: above, congrArg _ habove, ?_⟩
      rw [List.mem_cons, not_or]
      exact ⟨Ne.symm hne, hnot⟩

/-- The stack of a node's component and what is below, told apart by their numbers. -/
structure Cut (s : State α) (v : α) (component rest : List α) : Prop where
  stack : s.stack = component ++ rest
  mem : v ∈ component
  above : ∀ u ∈ component, s.indexOf v ≤ s.indexOf u
  under : ∀ u ∈ rest, s.indexOf u < s.indexOf v

theorem Ordered.cut (h : s.Ordered nodes deps) {v : α} (hv : v ∈ s.stack) :
    Cut s v (popUntil v s.stack).1 (popUntil v s.stack).2 := by
  obtain ⟨happend, above, habove, -⟩ := popUntil_eq hv
  have hsorted := h.sorted
  rw [← happend, habove, List.append_assoc, List.pairwise_append] at hsorted
  obtain ⟨-, hrest, hacross⟩ := hsorted
  refine ⟨happend.symm, by rw [habove]; exact List.mem_append_right _ List.mem_cons_self, ?_, ?_⟩
  · intro u hu
    rw [habove, List.mem_append, List.mem_singleton] at hu
    cases hu with
    | inl hmem => exact Nat.le_of_lt (hacross u hmem v List.mem_cons_self)
    | inr heq => exact Nat.le_of_eq (by rw [heq])
  · intro u hu
    exact (List.pairwise_cons.1 hrest).1 u hu

section

variable {frame : Frame α} {below : List (Frame α)} {component rest : List α}

theorem Cut.mem_component (hcut : Cut s frame.path component rest) {u : α} (hu : u ∈ s.stack)
    (hle : s.indexOf frame.path ≤ s.indexOf u) : u ∈ component := by
  rw [hcut.stack, List.mem_append] at hu
  cases hu with
  | inl hmem => exact hmem
  | inr hrest =>
    have hlt := hcut.under u hrest
    omega

theorem Cut.mem_rest (hcut : Cut s frame.path component rest) {u : α} (hu : u ∈ s.stack)
    (hlt : s.indexOf u < s.indexOf frame.path) : u ∈ rest := by
  rw [hcut.stack, List.mem_append] at hu
  cases hu with
  | inr hmem => exact hmem
  | inl hcomponent =>
    have hle := hcut.above u hcomponent
    omega

/-- All edges of a component's nodes are examined. -/
theorem Cut.examined (hcut : Cut s frame.path component rest) (ho : s.Ordered nodes deps)
    (hwork : s.work = frame :: below) (hdone : (deps frame.path)[frame.depIndex]? = none) {u w : α}
    (hu : u ∈ component) (hedge : w ∈ deps u) : Examined deps s u w := by
  refine ⟨hedge, fun other hother hpath => ?_⟩
  rw [hwork] at hother
  cases List.mem_cons.1 hother with
  | inl heq =>
    rw [heq] at hpath ⊢
    rw [← hpath] at hedge ⊢
    rw [List.take_of_length_le (List.getElem?_eq_none_iff.1 hdone)]
    exact hedge
  | inr hbelow =>
    have hlt := ho.frame_lt hwork hbelow
    have hle := hcut.above u hu
    rw [← hpath] at hle
    omega

/-- A node that is numbered and off the stack has its component. -/
theorem Inv.edge_off (h : s.Inv nodes deps) {u w : α} (hu : s.Indexed u ∧ u ∉ s.stack)
    (hedge : w ∈ deps u) : s.Indexed w ∧ w ∉ s.stack := by
  rw [← h.condensed.settled] at hu ⊢
  have hfirst := h.condensed.first s.components.length u
  rw [List.take_length] at hfirst
  exact hfirst hu w hedge

theorem Inv.reach_off (h : s.Inv nodes deps) {u w : α} (hu : s.Indexed u ∧ u ∉ s.stack)
    (hreach : Reach deps u w) : s.Indexed w ∧ w ∉ s.stack := by
  induction hreach with
  | refl => exact hu
  | tail _ hedge ih => exact h.edge_off ih hedge

section

variable (hcut : Cut s frame.path component rest) (h : s.Inv nodes deps)
  (hwork : s.work = frame :: below) (hdone : (deps frame.path)[frame.depIndex]? = none)
  (hlow : s.lowOf frame.path = s.indexOf frame.path) {u : α} (hu : u ∈ component)
include hcut h hwork hdone hlow hu

/-- No edge leaves the component for what is below it on the stack. -/
theorem Cut.edge {w : α} (hedge : w ∈ deps u) :
    s.Indexed w ∧ (w ∈ component ∨ w ∉ s.stack) := by
  have hstack : u ∈ s.stack := by
    rw [hcut.stack]
    exact List.mem_append_left _ hu
  have hexamined := hcut.examined h.ordered hwork hdone hu hedge
  refine ⟨h.ordered.examined u w (h.ordered.stacked u hstack) hexamined, ?_⟩
  by_cases hw : w ∈ s.stack
  · have howned : s.Owner u frame := by
      refine ⟨by rw [hwork]; exact List.mem_cons_self, hcut.above u hu, fun other hother _ => ?_⟩
      rw [hwork] at hother
      cases List.mem_cons.1 hother with
      | inl heq => exact Nat.le_of_eq (by rw [heq])
      | inr hbelow => exact Nat.le_of_lt (h.ordered.frame_lt hwork hbelow)
    have hlowest := h.linked.lowest u hstack w hw hexamined frame howned
    rw [hlow] at hlowest
    exact .inl (hcut.mem_component hw hlowest)
  · exact .inr hw

theorem Cut.reach {w : α} (hreach : Reach deps u w) :
    w ∈ component ∨ (s.Indexed w ∧ w ∉ s.stack) := by
  induction hreach with
  | refl => exact .inl hu
  | tail _ hedge ih =>
    cases ih with
    | inl hcomponent =>
      obtain ⟨hindexed, hwhere⟩ := hcut.edge h hwork hdone hlow hcomponent hedge
      cases hwhere with
      | inl hmem => exact .inl hmem
      | inr hoff => exact .inr ⟨hindexed, hoff⟩
    | inr hoff => exact .inr (h.edge_off hoff hedge)

/-- The nodes of the component and its lowest one reach each other. -/
theorem Cut.joined : Reach deps frame.path u ∧ Reach deps u frame.path := by
  have hstack : u ∈ s.stack := by
    rw [hcut.stack]
    exact List.mem_append_left _ hu
  have hframe : frame ∈ s.work := by
    rw [hwork]
    exact List.mem_cons_self
  refine ⟨h.linked.down frame hframe u hstack (hcut.above u hu), ?_⟩
  obtain ⟨other, hother, -, hpath⟩ := h.linked.up u hstack
  have hframed := h.ordered.framed other hother
  rw [hwork] at hother
  cases List.mem_cons.1 hother with
  | inl heq => rwa [heq] at hpath
  | inr hbelow =>
    have hlt := h.ordered.frame_lt hwork hbelow
    cases hcut.reach h hwork hdone hlow hu hpath with
    | inl hmem =>
      have hle := hcut.above _ hmem
      omega
    | inr hoff => exact absurd hframed hoff.2

/-- The component is all that its nodes reach and are reached from. -/
theorem Cut.strong (w : α) : w ∈ component ↔ Reach deps u w ∧ Reach deps w u := by
  have hjoined := hcut.joined h hwork hdone hlow hu
  constructor
  · intro hw
    have hother := hcut.joined h hwork hdone hlow hw
    exact ⟨hjoined.2.trans hother.1, hother.2.trans hjoined.1⟩
  · rintro ⟨hto, hback⟩
    cases hcut.reach h hwork hdone hlow hu hto with
    | inl hmem => exact hmem
    | inr hoff =>
      have hreach := h.reach_off hoff hback
      rw [hcut.stack] at hreach
      exact absurd (List.mem_append_left _ hu) hreach.2

end

end

theorem mem_foldl_delete {component : List α} {set : JsSet α} {u : α} :
    u ∈ component.foldl JsSet.delete set ↔ u ∈ set ∧ u ∉ component := by
  induction component generalizing set with
  | nil => simp
  | cons member component ih =>
    rw [List.foldl_cons, ih, JsSet.mem_delete, List.mem_cons, not_or]
    tauto

theorem Ordered.stack_nodup (h : s.Ordered nodes deps) : s.stack.Nodup :=
  h.sorted.imp fun hlt heq => by
    rw [heq] at hlt
    omega

section

variable {frame : Frame α} {below : List (Frame α)} {component rest : List α}

/-- The search without a component and the frame of its lowest node. -/
structure Closed (s s' : State α) (component rest : List α) (below : List (Frame α)) : Prop where
  index : s'.index = s.index
  indices : s'.indices = s.indices
  lowlinks : s'.lowlinks = s.lowlinks
  onStack : s'.onStack = component.foldl JsSet.delete s.onStack
  stack : s'.stack = rest
  work : s'.work = below
  components : s'.components = s.components ++ [component]
  componentOf : s'.componentOf =
    s.componentOf.setAll (component.map fun member => (member, s.components.length))

variable {s' : State α}

section

variable (hclosed : Closed s s' component rest below)
include hclosed

theorem Closed.indexOf (u : α) : s'.indexOf u = s.indexOf u := by
  rw [State.indexOf, State.indexOf, hclosed.indices]

theorem Closed.lowOf (u : α) : s'.lowOf u = s.lowOf u := by
  rw [State.lowOf, State.lowOf, hclosed.lowlinks]

theorem Closed.indexed (u : α) : s'.Indexed u ↔ s.Indexed u := by
  rw [Indexed, Indexed, hclosed.indices]

theorem Closed.examined (hwork : s.work = frame :: below)
    (hdone : (deps frame.path)[frame.depIndex]? = none) {u w : α} (h : Examined deps s' u w) :
    Examined deps s u w := by
  apply examined_left hwork hdone
  obtain ⟨hedge, htake⟩ := h
  rw [hclosed.work] at htake
  exact ⟨hedge, htake⟩

end

theorem Closed.disjoint (hcut : Cut s frame.path component rest) {u : α} (hu : u ∈ rest) :
    u ∈ s.stack ∧ u ∉ component := by
  have hstack : u ∈ s.stack := by
    rw [hcut.stack]
    exact List.mem_append_right _ hu
  refine ⟨hstack, fun hmem => ?_⟩
  have hle := hcut.above u hmem
  have hlt := hcut.under u hu
  omega

theorem Closed.ordered (hclosed : Closed s s' component rest below)
    (hcut : Cut s frame.path component rest) (h : s.Ordered nodes deps)
    (hwork : s.work = frame :: below) (hdone : (deps frame.path)[frame.depIndex]? = none) :
    s'.Ordered nodes deps := by
  have hmem : ∀ other ∈ below, other ∈ s.work := fun other hother => by
    rw [hwork]
    exact List.mem_cons_of_mem _ hother
  constructor
  · intro v hv
    exact h.known v ((hclosed.indexed v).1 hv)
  · intro v hv
    rw [hclosed.indexOf, hclosed.index]
    exact h.below v ((hclosed.indexed v).1 hv)
  · rw [hclosed.stack]
    have hsorted := h.sorted
    rw [hcut.stack, List.pairwise_append] at hsorted
    exact hsorted.2.1.imp fun hlt => by rwa [hclosed.indexOf, hclosed.indexOf]
  · intro v hv
    rw [hclosed.stack] at hv
    exact (hclosed.indexed v).2 (h.stacked v (Closed.disjoint hcut hv).1)
  · intro v
    rw [hclosed.onStack, hclosed.stack, mem_foldl_delete, h.onStack, hcut.stack, List.mem_append]
    constructor
    · rintro ⟨hcomponent | hrest, hnot⟩
      · exact absurd hcomponent hnot
      · exact hrest
    · intro hrest
      exact ⟨.inr hrest, (Closed.disjoint hcut hrest).2⟩
  · rw [hclosed.work]
    exact (h.left hwork hdone).frames.imp fun hlt => by rwa [hclosed.indexOf, hclosed.indexOf]
  · intro other hother
    rw [hclosed.work] at hother
    rw [hclosed.stack]
    exact hcut.mem_rest (h.framed other (hmem other hother)) (h.frame_lt hwork hother)
  · intro v w hv hexamined
    rw [hclosed.indexed] at hv ⊢
    exact h.examined v w hv (hclosed.examined hwork hdone hexamined)

theorem Closed.linked (hclosed : Closed s s' component rest below)
    (hcut : Cut s frame.path component rest) (h : s.Inv nodes deps)
    (hwork : s.work = frame :: below) (hdone : (deps frame.path)[frame.depIndex]? = none) :
    s'.Linked deps := by
  have hl := h.linked
  have hmem : ∀ other ∈ below, other ∈ s.work := fun other hother => by
    rw [hwork]
    exact List.mem_cons_of_mem _ hother
  constructor
  · intro other hother
    rw [hclosed.work] at hother
    rw [hclosed.lowlinks]
    exact hl.lows other (hmem other hother)
  · intro other hother
    rw [hclosed.work] at hother
    rw [hclosed.lowOf, hclosed.indexOf]
    exact hl.lowLe other (hmem other hother)
  · intro other hother
    rw [hclosed.work] at hother
    obtain ⟨w, hw, hindex, hreach⟩ := hl.lowReach other (hmem other hother)
    have hle := hl.lowLe other (hmem other hother)
    have hlt := h.ordered.frame_lt hwork hother
    refine ⟨w, ?_, ?_, hreach⟩
    · rw [hclosed.stack]
      exact hcut.mem_rest hw (by omega)
    · rw [hclosed.lowOf, hclosed.indexOf]
      exact hindex
  · intro other hother v hv hle
    rw [hclosed.work] at hother
    rw [hclosed.stack] at hv
    rw [hclosed.indexOf, hclosed.indexOf] at hle
    exact hl.down other (hmem other hother) v (Closed.disjoint hcut hv).1 hle
  · intro v hv
    rw [hclosed.stack] at hv
    obtain ⟨other, hother, hle, hpath⟩ := hl.up v (Closed.disjoint hcut hv).1
    have hlt := hcut.under v hv
    rw [hwork] at hother
    cases List.mem_cons.1 hother with
    | inl heq =>
      rw [heq] at hle
      omega
    | inr hbelow =>
      rw [hclosed.work]
      exact ⟨other, hbelow, by rwa [hclosed.indexOf, hclosed.indexOf], hpath⟩
  · intro v hv w hw hexamined owner howner
    rw [hclosed.stack] at hv hw
    have hlt := hcut.under v hv
    rw [hclosed.lowOf, hclosed.indexOf]
    apply hl.lowest v (Closed.disjoint hcut hv).1 w (Closed.disjoint hcut hw).1
      (hclosed.examined hwork hdone hexamined)
    obtain ⟨howner, hle, hnewest⟩ := howner
    rw [hclosed.work] at howner hnewest
    rw [hclosed.indexOf, hclosed.indexOf] at hle
    refine ⟨hmem owner howner, hle, fun other hother hother_le => ?_⟩
    rw [hwork] at hother
    cases List.mem_cons.1 hother with
    | inl heq =>
      rw [heq] at hother_le
      omega
    | inr hbelow =>
      have hnewer := hnewest other hbelow
      rw [hclosed.indexOf, hclosed.indexOf, hclosed.indexOf] at hnewer
      exact hnewer hother_le

theorem Closed.condensed (hclosed : Closed s s' component rest below)
    (hcut : Cut s frame.path component rest) (h : s.Inv nodes deps)
    (hwork : s.work = frame :: below) (hdone : (deps frame.path)[frame.depIndex]? = none)
    (hlow : s.lowOf frame.path = s.indexOf frame.path) : s'.Condensed deps := by
  have hc := h.condensed
  have hstack : ∀ v ∈ component, v ∈ s.stack := fun v hv => by
    rw [hcut.stack]
    exact List.mem_append_left _ hv
  have hnodup := h.ordered.stack_nodup
  rw [hcut.stack, List.nodup_append] at hnodup
  have hfresh : ∀ v ∈ component, v ∉ s.components.flatten := fun v hv hmem =>
    ((hc.settled v).1 hmem).2 (hstack v hv)
  have hkeys : (component.map fun member => (member, s.components.length)).map (·.1) = component := by
    rw [List.map_map]
    exact List.map_id _
  constructor
  · intro v
    rw [hclosed.components, hclosed.indexed, hclosed.stack, List.flatten_append,
      List.flatten_singleton, List.mem_append, hc.settled, hcut.stack, List.mem_append]
    constructor
    · rintro (⟨hindexed, hoff⟩ | hmem)
      · exact ⟨hindexed, fun hrest => hoff (.inr hrest)⟩
      · refine ⟨h.ordered.stacked v (hstack v hmem), fun hrest => ?_⟩
        exact (Closed.disjoint hcut hrest).2 hmem
    · rintro ⟨hindexed, hoff⟩
      by_cases hmem : v ∈ component
      · exact .inr hmem
      · exact .inl ⟨hindexed, fun hor => hor.elim hmem hoff⟩
  · rw [hclosed.components, List.flatten_append, List.flatten_singleton, List.nodup_append]
    refine ⟨hc.nodup, hnodup.1, fun v hv w hw heq => ?_⟩
    exact hfresh w hw (heq ▸ hv)
  · intro v c
    rw [hclosed.componentOf, hclosed.components]
    by_cases hmem : v ∈ component
    · have hset := JsMap.get_setAll_of_mem s.componentOf (by rw [hkeys]; exact hnodup.1)
        (List.mem_map_of_mem (f := fun member => (member, s.components.length)) hmem)
      rw [show (s.componentOf.setAll (component.map fun member =>
        (member, s.components.length))).get v = some s.components.length from hset, Option.some_inj]
      constructor
      · intro heq
        rw [← heq, List.getElem?_concat_length]
        exact ⟨component, rfl, hmem⟩
      · rintro ⟨found, hfound, hin⟩
        rw [List.getElem?_append] at hfound
        split at hfound
        · exact absurd (List.mem_flatten.2 ⟨found, List.mem_of_getElem? hfound, hin⟩) (hfresh v hmem)
        · rename_i hge
          have hone := (List.getElem?_eq_some_iff.1 hfound).1
          rw [List.length_singleton] at hone
          omega
    · rw [JsMap.get_setAll_of_not_mem _ (by rw [hkeys]; exact hmem), hc.componentOf]
      constructor
      · rintro ⟨found, hfound, hin⟩
        refine ⟨found, ?_, hin⟩
        rw [List.getElem?_append_left (List.getElem?_eq_some_iff.1 hfound).1]
        exact hfound
      · rintro ⟨found, hfound, hin⟩
        rw [List.getElem?_append] at hfound
        split at hfound
        · exact ⟨found, hfound, hin⟩
        · have hlast := List.mem_of_getElem? hfound
          rw [List.mem_singleton] at hlast
          exact absurd (hlast ▸ hin) hmem
  · intro found hfound v hv w
    rw [hclosed.components, List.mem_append, List.mem_singleton] at hfound
    cases hfound with
    | inl hold => exact hc.strong found hold v hv w
    | inr hnew =>
      rw [hnew] at hv ⊢
      exact hcut.strong h hwork hdone hlow hv w
  · intro n v hv w hedge
    rw [hclosed.components, List.take_append] at hv ⊢
    rw [List.flatten_append, List.mem_append] at hv ⊢
    cases hv with
    | inl hold => exact .inl (hc.first n v hold w hedge)
    | inr hnew =>
      cases hn : n - s.components.length with
      | zero =>
        rw [hn, List.take_zero] at hnew
        exact (List.not_mem_nil hnew).elim
      | succ m =>
        rw [hn, List.take_succ_cons, List.take_nil, List.flatten_singleton] at hnew
        rw [List.take_succ_cons, List.take_nil, List.flatten_singleton,
          List.take_of_length_le (by omega)]
        obtain ⟨hindexed, hwhere⟩ := hcut.edge h hwork hdone hlow hnew hedge
        cases hwhere with
        | inl hmem => exact .inr hmem
        | inr hoff => exact .inl ((hc.settled w).2 ⟨hindexed, hoff⟩)

theorem Inv.close (h : s.Inv nodes deps) (hwork : s.work = frame :: below)
    (hdone : (deps frame.path)[frame.depIndex]? = none)
    (hlow : s.lowOf frame.path = s.indexOf frame.path) :
    Inv nodes deps { s.close frame.path with work := below } := by
  have hframe : frame ∈ s.work := by
    rw [hwork]
    exact List.mem_cons_self
  have hcut := h.ordered.cut (h.ordered.framed frame hframe)
  have hclosed : Closed s { s.close frame.path with work := below } _ _ below :=
    ⟨rfl, rfl, rfl, rfl, rfl, rfl, rfl, rfl⟩
  exact ⟨hclosed.ordered hcut h.ordered hwork hdone, hclosed.linked hcut h hwork hdone,
    hclosed.condensed hcut h hwork hdone hlow⟩

end

end State

end Tarjan
