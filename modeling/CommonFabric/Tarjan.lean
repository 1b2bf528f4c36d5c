import Mathlib.Algebra.Ring.Nat
import Mathlib.Logic.Relation
import CommonFabric.JsMap
import CommonFabric.JsSet

/-!
# Strongly connected components, by a depth-first search with a work list

The search numbers nodes as it finds them and keeps, for each, the least number of a node on the
stack that it is known to reach. A node all of whose edges are examined and whose two numbers agree
is the lowest of its component, which is what lies above it on the stack. The graph is any function
from nodes to the list of their targets.
-/

namespace Tarjan

variable {α : Type} [DecidableEq α]

/-- A node whose edges are being examined, and how many were. -/
structure Frame (α : Type) where
  path : α
  depIndex : Nat

/-- The stack and the work list have their top first. -/
structure State (α : Type) where
  index : Nat
  indices : JsMap α Nat
  lowlinks : JsMap α Nat
  onStack : JsSet α
  stack : List α
  work : List (Frame α)
  components : List (List α)
  componentOf : JsMap α Nat

namespace State

def initial : State α where
  index := 0
  indices := .empty
  lowlinks := .empty
  onStack := .empty
  stack := []
  work := []
  components := []
  componentOf := .empty

def indexOf (s : State α) (v : α) : Nat := (s.indices.get v).getD 0

def lowOf (s : State α) (v : α) : Nat := (s.lowlinks.get v).getD 0

/-- A node is numbered, and its edges are to be examined next. -/
def discover (s : State α) (v : α) : State α :=
  { s with index := s.index + 1
           indices := s.indices.set v s.index
           lowlinks := s.lowlinks.set v s.index
           onStack := s.onStack.add v
           stack := v :: s.stack
           work := ⟨v, 0⟩ :: s.work }

/-- What is above a node on the stack with the node itself, and what is below it. -/
def popUntil (v : α) : List α → List α × List α
  | [] => ([], [])
  | member :: rest =>
    if member = v then ([member], rest)
    else (member :: (popUntil v rest).1, (popUntil v rest).2)

/-- The component of a node is taken off the stack. -/
def close (s : State α) (v : α) : State α :=
  let component := (popUntil v s.stack).1
  { s with stack := (popUntil v s.stack).2
           onStack := component.foldl JsSet.delete s.onStack
           components := s.components ++ [component]
           componentOf := s.componentOf.setAll (component.map fun member =>
             (member, s.components.length)) }

/-- A node's number is lowered to another, if it is greater. -/
def lower (s : State α) (v : α) (low : Nat) : State α :=
  { s with lowlinks := s.lowlinks.set v (min (s.lowOf v) low) }

/-- The top frame goes, and the frame below it learns its number. -/
def leave (s : State α) (v : α) (below : List (Frame α)) : State α :=
  match below with
  | [] => { s with work := [] }
  | parent :: _ => { s.lower parent.path (s.lowOf v) with work := below }

end State

/-- One turn of the loop over the work list. -/
def step (deps : α → List α) (s : State α) : State α :=
  match s.work with
  | [] => s
  | frame :: below =>
    match (deps frame.path)[frame.depIndex]? with
    | some target =>
      let s := { s with work := ⟨frame.path, frame.depIndex + 1⟩ :: below }
      if s.indices.has target then
        if s.onStack.has target then s.lower frame.path (s.indexOf target) else s
      else s.discover target
    | none =>
      if s.lowlinks.get frame.path = s.indices.get frame.path then
        (s.close frame.path).leave frame.path below
      else s.leave frame.path below

/-- The loop, with a bound on its turns. -/
def loop (deps : α → List α) : Nat → State α → State α
  | 0, s => s
  | fuel + 1, s => if s.work.isEmpty then s else loop deps fuel (step deps s)

/-- A search from one node, unless it was found before. -/
def visit (deps : α → List α) (fuel : Nat) (s : State α) (start : α) : State α :=
  if s.indices.has start then s else loop deps fuel (s.discover start)

/-- Enough turns to examine every edge. -/
def turns (nodes : List α) (deps : α → List α) : Nat :=
  (nodes.map fun v => (deps v).length + 1).sum

/-- The components, those that a component depends on before it. -/
def sccs (nodes : List α) (deps : α → List α) : State α :=
  nodes.foldl (visit deps (turns nodes deps)) .initial

def Reach (deps : α → List α) : α → α → Prop := Relation.ReflTransGen fun v w => w ∈ deps v

namespace State

def Indexed (s : State α) (v : α) : Prop := s.indices.has v = true

/-- An edge that the search has looked at: any, of a node that it has left. -/
def Examined (deps : α → List α) (s : State α) (v w : α) : Prop :=
  w ∈ deps v ∧ ∀ frame ∈ s.work, frame.path = v → w ∈ (deps v).take frame.depIndex

/-- The newest frame that is no newer than a node. -/
def Owner (s : State α) (v : α) (frame : Frame α) : Prop :=
  frame ∈ s.work ∧ s.indexOf frame.path ≤ s.indexOf v ∧
    ∀ other ∈ s.work, s.indexOf other.path ≤ s.indexOf v → s.indexOf other.path ≤ s.indexOf frame.path

/-- The stack is in the order of the numbers, frames are of nodes on it, and every edge that was
examined leads to a numbered node. -/
structure Ordered (nodes : List α) (deps : α → List α) (s : State α) : Prop where
  known : ∀ v, s.Indexed v → v ∈ nodes
  below : ∀ v, s.Indexed v → s.indexOf v < s.index
  sorted : s.stack.Pairwise fun v w => s.indexOf w < s.indexOf v
  stacked : ∀ v ∈ s.stack, s.Indexed v
  onStack : ∀ v, v ∈ s.onStack ↔ v ∈ s.stack
  frames : s.work.Pairwise fun f g => s.indexOf g.path < s.indexOf f.path
  framed : ∀ frame ∈ s.work, frame.path ∈ s.stack
  examined : ∀ v w, s.Indexed v → Examined deps s v w → s.Indexed w

/-- A frame reaches what is above it on the stack, what is on the stack reaches a frame below it, and
a frame's low number is of a node that it reaches, and no greater than any that the nodes it owns have
an examined edge to. -/
structure Linked (deps : α → List α) (s : State α) : Prop where
  lows : ∀ frame ∈ s.work, (s.lowlinks.get frame.path).isSome
  lowLe : ∀ frame ∈ s.work, s.lowOf frame.path ≤ s.indexOf frame.path
  lowReach : ∀ frame ∈ s.work,
    ∃ w ∈ s.stack, s.indexOf w = s.lowOf frame.path ∧ Reach deps frame.path w
  down : ∀ frame ∈ s.work, ∀ v ∈ s.stack, s.indexOf frame.path ≤ s.indexOf v →
    Reach deps frame.path v
  up : ∀ v ∈ s.stack, ∃ frame ∈ s.work, s.indexOf frame.path ≤ s.indexOf v ∧ Reach deps v frame.path
  lowest : ∀ v ∈ s.stack, ∀ w ∈ s.stack, Examined deps s v w → ∀ frame, s.Owner v frame →
    s.lowOf frame.path ≤ s.indexOf w

/-- The components so far: strongly connected, maximal, each before those that depend on it. -/
structure Condensed (deps : α → List α) (s : State α) : Prop where
  settled : ∀ v, v ∈ s.components.flatten ↔ s.Indexed v ∧ v ∉ s.stack
  nodup : s.components.flatten.Nodup
  componentOf : ∀ v c, s.componentOf.get v = some c ↔
    ∃ component, s.components[c]? = some component ∧ v ∈ component
  strong : ∀ component ∈ s.components, ∀ v ∈ component, ∀ w,
    w ∈ component ↔ Reach deps v w ∧ Reach deps w v
  first : ∀ n, ∀ v ∈ (s.components.take n).flatten, ∀ w ∈ deps v,
    w ∈ (s.components.take n).flatten

structure Inv (nodes : List α) (deps : α → List α) (s : State α) : Prop where
  ordered : s.Ordered nodes deps
  linked : s.Linked deps
  condensed : s.Condensed deps

section

variable {s : State α} {v w : α}

@[simp] theorem indexOf_discover :
    (s.discover v).indexOf w = if v = w then s.index else s.indexOf w := by
  rw [indexOf, discover, JsMap.get_set]
  split
  · rfl
  · rfl

@[simp] theorem lowOf_discover :
    (s.discover v).lowOf w = if v = w then s.index else s.lowOf w := by
  rw [lowOf, discover, JsMap.get_set]
  split
  · rfl
  · rfl

@[simp] theorem lowOf_lower {low : Nat} :
    (s.lower v low).lowOf w = if v = w then min (s.lowOf v) low else s.lowOf w := by
  rw [lowOf, lower, JsMap.get_set]
  split
  · rfl
  · rfl

theorem indexed_discover : (s.discover v).Indexed w ↔ v = w ∨ s.Indexed w := by
  rw [Indexed, Indexed, JsMap.has, discover, JsMap.get_set]
  split
  · rename_i heq
    simp [heq]
  · rename_i hne
    rw [JsMap.has]
    simp [hne]

end

section

variable {nodes : List α} {deps : α → List α} {s : State α}

/-- Nodes on the stack are told apart by their numbers. -/
theorem Ordered.indexOf_inj (h : s.Ordered nodes deps) {v w : α} (hv : v ∈ s.stack)
    (hw : w ∈ s.stack) (heq : s.indexOf v = s.indexOf w) : v = w := by
  by_contra hne
  have hsorted := h.sorted
  obtain ⟨before, after, hsplit⟩ := List.append_of_mem hv
  rw [hsplit] at hsorted hw
  rw [List.pairwise_append, List.pairwise_cons] at hsorted
  rw [List.mem_append, List.mem_cons] at hw
  obtain hbefore | hsame | hafter := hw
  · have hlt := hsorted.2.2 w hbefore v List.mem_cons_self
    omega
  · exact hne hsame.symm
  · have hlt := hsorted.2.1.1 w hafter
    omega

theorem examined_discover {v u w : α} (h : Examined deps (s.discover v) u w) :
    u ≠ v ∧ Examined deps s u w := by
  obtain ⟨hedge, htake⟩ := h
  refine ⟨fun heq => ?_, hedge, fun frame hframe => htake frame (List.mem_cons_of_mem _ hframe)⟩
  -- No edge of the node itself is examined yet.
  have hzero := htake ⟨v, 0⟩ List.mem_cons_self heq.symm
  rw [List.take_zero] at hzero
  exact List.not_mem_nil hzero

theorem Ordered.discover (h : s.Ordered nodes deps) {v : α} (hv : v ∈ nodes) (hnew : ¬s.Indexed v) :
    (s.discover v).Ordered nodes deps := by
  have hne : ∀ u, s.Indexed u → v ≠ u := fun u hu heq => hnew (heq ▸ hu)
  have hstack : ∀ u ∈ s.stack, (s.discover v).indexOf u = s.indexOf u := fun u hu => by
    rw [indexOf_discover, if_neg (hne u (h.stacked u hu))]
  have hself : (s.discover v).indexOf v = s.index := by
    rw [indexOf_discover, if_pos rfl]
  have hlt : ∀ u ∈ s.stack, (s.discover v).indexOf u < s.index := fun u hu => by
    rw [hstack u hu]
    exact h.below u (h.stacked u hu)
  constructor
  · intro u hu
    cases indexed_discover.1 hu with
    | inl heq => exact heq ▸ hv
    | inr hold => exact h.known u hold
  · intro u hu
    change (s.discover v).indexOf u < s.index + 1
    rw [indexOf_discover]
    split
    · omega
    · rename_i hother
      cases indexed_discover.1 hu with
      | inl heq => exact absurd heq hother
      | inr hold =>
        have hbelow := h.below u hold
        omega
  · apply List.pairwise_cons.2
    constructor
    · intro u hu
      rw [hself]
      exact hlt u hu
    · apply h.sorted.imp_of_mem
      intro a b ha hb hab
      rw [hstack a ha, hstack b hb]
      exact hab
  · intro u hu
    rw [indexed_discover]
    cases List.mem_cons.1 hu with
    | inl heq => exact .inl heq.symm
    | inr hold => exact .inr (h.stacked u hold)
  · intro u
    change u ∈ s.onStack.add v ↔ u ∈ v :: s.stack
    rw [JsSet.mem_add, List.mem_cons, h.onStack]
  · apply List.pairwise_cons.2
    constructor
    · intro frame hframe
      rw [hself]
      exact hlt _ (h.framed frame hframe)
    · apply h.frames.imp_of_mem
      intro f g hf hg hfg
      rw [hstack _ (h.framed f hf), hstack _ (h.framed g hg)]
      exact hfg
  · intro frame hframe
    cases List.mem_cons.1 hframe with
    | inl heq =>
      rw [heq]
      exact List.mem_cons_self
    | inr hold => exact List.mem_cons_of_mem _ (h.framed frame hold)
  · intro u w hu hexamined
    obtain ⟨hother, hexamined⟩ := examined_discover hexamined
    cases indexed_discover.1 hu with
    | inl heq => exact absurd heq.symm hother
    | inr hold => exact indexed_discover.2 (.inr (h.examined u w hold hexamined))

theorem Linked.discover (h : s.Linked deps) (ho : s.Ordered nodes deps) {v : α}
    (hnew : ¬s.Indexed v) (hreach : ∀ frame ∈ s.work, Reach deps frame.path v) :
    (s.discover v).Linked deps := by
  have hne : ∀ u ∈ s.stack, v ≠ u := fun u hu heq => hnew (heq ▸ ho.stacked u hu)
  have hindex : ∀ u ∈ s.stack, (s.discover v).indexOf u = s.indexOf u := fun u hu => by
    rw [indexOf_discover, if_neg (hne u hu)]
  have hlow : ∀ u ∈ s.stack, (s.discover v).lowOf u = s.lowOf u := fun u hu => by
    rw [lowOf_discover, if_neg (hne u hu)]
  have hself : (s.discover v).indexOf v = s.index := by
    rw [indexOf_discover, if_pos rfl]
  have hlt : ∀ u ∈ s.stack, s.indexOf u < s.index := fun u hu => ho.below u (ho.stacked u hu)
  constructor
  · intro frame hframe
    change ((s.lowlinks.set v s.index).get frame.path).isSome = true
    rw [JsMap.get_set]
    split
    · rfl
    · rename_i hother
      cases List.mem_cons.1 hframe with
      | inl heq => exact absurd (congrArg Frame.path heq).symm hother
      | inr hold => exact h.lows frame hold
  · intro frame hframe
    cases List.mem_cons.1 hframe with
    | inl heq => simp [heq]
    | inr hold =>
      rw [hlow _ (ho.framed frame hold), hindex _ (ho.framed frame hold)]
      exact h.lowLe frame hold
  · intro frame hframe
    cases List.mem_cons.1 hframe with
    | inl heq =>
      refine ⟨v, List.mem_cons_self, ?_, ?_⟩
      · simp [heq]
      · rw [heq]
        exact Relation.ReflTransGen.refl
    | inr hold =>
      obtain ⟨w, hw, heq, hpath⟩ := h.lowReach frame hold
      refine ⟨w, List.mem_cons_of_mem _ hw, ?_, hpath⟩
      rw [hlow _ (ho.framed frame hold), hindex w hw]
      exact heq
  · intro frame hframe u hu hle
    cases List.mem_cons.1 hframe with
    | inl heq =>
      cases List.mem_cons.1 hu with
      | inl huv =>
        rw [heq, huv]
        exact Relation.ReflTransGen.refl
      | inr hold =>
        rw [heq, hself, hindex u hold] at hle
        have hbelow := hlt u hold
        omega
    | inr hframe =>
      cases List.mem_cons.1 hu with
      | inl huv =>
        rw [huv]
        exact hreach frame hframe
      | inr hold =>
        rw [hindex u hold, hindex _ (ho.framed frame hframe)] at hle
        exact h.down frame hframe u hold hle
  · intro u hu
    cases List.mem_cons.1 hu with
    | inl heq =>
      refine ⟨⟨v, 0⟩, List.mem_cons_self, ?_, ?_⟩
      · exact Nat.le_of_eq (by rw [heq])
      · rw [heq]
        exact Relation.ReflTransGen.refl
    | inr hold =>
      obtain ⟨frame, hframe, hle, hpath⟩ := h.up u hold
      refine ⟨frame, List.mem_cons_of_mem _ hframe, ?_, hpath⟩
      rw [hindex u hold, hindex _ (ho.framed frame hframe)]
      exact hle
  · intro u hu w hw hexamined frame howner
    obtain ⟨hother, hexamined⟩ := examined_discover hexamined
    cases List.mem_cons.1 hu with
    | inl heq => exact absurd heq hother
    | inr hold =>
      obtain ⟨hframe, hle, hnewest⟩ := howner
      cases List.mem_cons.1 hframe with
      | inl heq =>
        rw [heq, hself, hindex u hold] at hle
        have hbelow := hlt u hold
        omega
      | inr hframe =>
        have hu' := ho.framed frame hframe
        rw [hlow _ hu']
        cases List.mem_cons.1 hw with
        | inl heq => exact absurd (heq ▸ ho.examined u w (ho.stacked u hold) hexamined) hnew
        | inr hw =>
          rw [hindex w hw]
          refine h.lowest u hold w hw hexamined frame ⟨hframe, ?_, ?_⟩
          · rw [← hindex u hold, ← hindex _ hu']
            exact hle
          · intro other hotherFrame hotherLe
            have hother := hnewest other (List.mem_cons_of_mem _ hotherFrame)
            rw [hindex u hold, hindex _ (ho.framed other hotherFrame), hindex _ hu'] at hother
            exact hother hotherLe

theorem Condensed.discover (h : s.Condensed deps) {v : α} (hnew : ¬s.Indexed v) :
    (s.discover v).Condensed deps where
  settled u := by
    change u ∈ s.components.flatten ↔ _ ∧ u ∉ v :: s.stack
    rw [h.settled, indexed_discover, List.mem_cons, not_or]
    constructor
    · intro hold
      exact ⟨.inr hold.1, fun heq => hnew (heq ▸ hold.1), hold.2⟩
    · rintro ⟨hindexed, hother, hstack⟩
      cases hindexed with
      | inl heq => exact absurd heq.symm hother
      | inr hold => exact ⟨hold, hstack⟩
  nodup := h.nodup
  componentOf := h.componentOf
  strong := h.strong
  first := h.first

theorem Inv.discover (h : s.Inv nodes deps) {v : α} (hv : v ∈ nodes) (hnew : ¬s.Indexed v)
    (hreach : ∀ frame ∈ s.work, Reach deps frame.path v) : (s.discover v).Inv nodes deps :=
  ⟨h.ordered.discover hv hnew, h.linked.discover h.ordered hnew hreach, h.condensed.discover hnew⟩

end

end State

end Tarjan

namespace Tarjan

variable {α : Type} [DecidableEq α] {nodes : List α} {deps : α → List α}

namespace State

variable {s : State α}

/-- The frame of a node is past one more edge. -/
def advance (s : State α) (above : List (Frame α)) (frame : Frame α) (below : List (Frame α)) :
    State α :=
  { s with work := above ++ ⟨frame.path, frame.depIndex + 1⟩ :: below }

section

variable {above below : List (Frame α)} {frame : Frame α} {target : α}

omit [DecidableEq α] in
theorem mem_advance {other : Frame α} (h : other ∈ (s.advance above frame below).work)
    (hwork : s.work = above ++ frame :: below) :
    ∃ old ∈ s.work, old.path = other.path := by
  rw [advance, List.mem_append, List.mem_cons] at h
  rw [hwork]
  obtain habove | heq | hbelow := h
  · exact ⟨other, List.mem_append_left _ habove, rfl⟩
  · exact ⟨frame, List.mem_append_right _ List.mem_cons_self, by rw [heq]⟩
  · exact ⟨other, List.mem_append_right _ (List.mem_cons_of_mem _ hbelow), rfl⟩

omit [DecidableEq α] in
theorem paths_advance (hwork : s.work = above ++ frame :: below) :
    (s.advance above frame below).work.map Frame.path = s.work.map Frame.path := by
  rw [advance, hwork, List.map_append, List.map_append, List.map_cons, List.map_cons]

theorem examined_advance (hwork : s.work = above ++ frame :: below)
    (htarget : (deps frame.path)[frame.depIndex]? = some target) {v w : α}
    (h : Examined deps (s.advance above frame below) v w) :
    Examined deps s v w ∨ (v = frame.path ∧ w = target) := by
  obtain ⟨hedge, htake⟩ := h
  by_cases hlast : v = frame.path ∧ w = target
  · exact .inr hlast
  · refine .inl ⟨hedge, fun other hother hpath => ?_⟩
    rw [hwork, List.mem_append, List.mem_cons] at hother
    obtain habove | heq | hbelow := hother
    · exact htake other (List.mem_append_left _ habove) hpath
    · have hnext := htake ⟨frame.path, frame.depIndex + 1⟩
        (List.mem_append_right _ List.mem_cons_self) (by rw [← hpath, heq])
      rw [heq] at hpath ⊢
      rw [List.take_add_one, ← hpath, htarget, Option.toList_some, List.mem_append,
        List.mem_singleton] at hnext
      rw [← hpath]
      cases hnext with
      | inl hold => exact hold
      | inr hnew => exact absurd ⟨hpath.symm, hnew⟩ hlast
    · exact htake other (List.mem_append_right _ (List.mem_cons_of_mem _ hbelow)) hpath

/-- The edge leads to a numbered node, and to none on the stack that is lower than the frame's
number. -/
theorem Inv.advance (h : s.Inv nodes deps) (hwork : s.work = above ++ frame :: below)
    (htarget : (deps frame.path)[frame.depIndex]? = some target) (hindexed : s.Indexed target)
    (hlow : target ∈ s.stack → s.lowOf frame.path ≤ s.indexOf target) :
    (s.advance above frame below).Inv nodes deps := by
  have hframe : frame ∈ s.work := by
    rw [hwork]
    exact List.mem_append_right _ List.mem_cons_self
  have hframes : ∀ old ∈ s.work, ∃ other ∈ (s.advance above frame below).work,
      other.path = old.path := by
    intro old hold
    have hmap : old.path ∈ (s.advance above frame below).work.map Frame.path := by
      rw [paths_advance hwork]
      exact List.mem_map_of_mem hold
    exact List.mem_map.1 hmap
  refine ⟨?_, ?_, ⟨h.condensed.settled, h.condensed.nodup, h.condensed.componentOf,
    h.condensed.strong, h.condensed.first⟩⟩
  · have ho := h.ordered
    refine ⟨ho.known, ho.below, ho.sorted, ho.stacked, ho.onStack, ?_, ?_, ?_⟩
    · have hpairs : (s.work.map Frame.path).Pairwise fun v w => s.indexOf w < s.indexOf v :=
        List.pairwise_map.2 ho.frames
      rw [← paths_advance hwork] at hpairs
      exact List.pairwise_map.1 hpairs
    · intro other hother
      obtain ⟨old, hold, hpath⟩ := mem_advance hother hwork
      rw [← hpath]
      exact ho.framed old hold
    · intro v w hv hexamined
      cases examined_advance hwork htarget hexamined with
      | inl hold => exact ho.examined v w hv hold
      | inr hnew =>
        rw [hnew.2]
        exact hindexed
  · have hl := h.linked
    constructor
    · intro other hother
      obtain ⟨old, hold, hpath⟩ := mem_advance hother hwork
      rw [← hpath]
      exact hl.lows old hold
    · intro other hother
      obtain ⟨old, hold, hpath⟩ := mem_advance hother hwork
      rw [← hpath]
      exact hl.lowLe old hold
    · intro other hother
      obtain ⟨old, hold, hpath⟩ := mem_advance hother hwork
      rw [← hpath]
      exact hl.lowReach old hold
    · intro other hother
      obtain ⟨old, hold, hpath⟩ := mem_advance hother hwork
      rw [← hpath]
      exact hl.down old hold
    · intro v hv
      obtain ⟨old, hold, hup⟩ := hl.up v hv
      obtain ⟨other, hother, hpath⟩ := hframes old hold
      rw [← hpath] at hup
      exact ⟨other, hother, hup⟩
    · intro v hv w hw hexamined other howner
      obtain ⟨hother, hle, hnewest⟩ := howner
      obtain ⟨old, hold, hpath⟩ := mem_advance hother hwork
      have howned : s.Owner v old := by
        refine ⟨hold, by rw [hpath]; exact hle, fun old' hold' hle' => ?_⟩
        obtain ⟨other', hother', hpath'⟩ := hframes old' hold'
        rw [← hpath'] at hle' ⊢
        rw [hpath]
        exact hnewest other' hother' hle'
      cases examined_advance hwork htarget hexamined with
      | inl hpast =>
        rw [← hpath]
        exact hl.lowest v hv w hw hpast old howned
      | inr hnew =>
        -- A frame owns its own node.
        have hself := howned.2.2 frame hframe (Nat.le_of_eq (by rw [hnew.1]))
        have hsame : old.path = frame.path := by
          by_contra hne
          have hle' := howned.2.1
          rw [hnew.1] at hle'
          have heq : s.indexOf old.path = s.indexOf frame.path := by omega
          exact hne (h.ordered.indexOf_inj (h.ordered.framed old hold)
            (h.ordered.framed frame hframe) heq)
        rw [hnew.2] at hw ⊢
        change s.lowOf other.path ≤ s.indexOf target
        rw [← hpath, hsame]
        exact hlow hw

end

/-- A node's number is lowered towards that of a node on the stack which it reaches. -/
theorem Inv.lower (h : s.Inv nodes deps) {v w : α} (hw : w ∈ s.stack) {low : Nat}
    (hlow : s.indexOf w = low) (hreach : Reach deps v w) :
    (s.lower v low).Inv nodes deps := by
  have hle : ∀ u, (s.lower v low).lowOf u ≤ s.lowOf u := fun u => by
    rw [lowOf_lower]
    split
    · rename_i heq
      rw [heq]
      exact Nat.min_le_left _ _
    · exact Nat.le_refl _
  have ho := h.ordered
  have hl := h.linked
  refine ⟨⟨ho.known, ho.below, ho.sorted, ho.stacked, ho.onStack, ho.frames, ho.framed,
    ho.examined⟩, ?_, ⟨h.condensed.settled, h.condensed.nodup, h.condensed.componentOf,
    h.condensed.strong, h.condensed.first⟩⟩
  constructor
  · intro frame hframe
    change ((s.lowlinks.set v (min (s.lowOf v) low)).get frame.path).isSome = true
    rw [JsMap.get_set]
    split
    · rfl
    · exact hl.lows frame hframe
  · intro frame hframe
    exact Nat.le_trans (hle frame.path) (hl.lowLe frame hframe)
  · intro frame hframe
    rw [lowOf_lower]
    split
    · rename_i heq
      by_cases hless : s.lowOf v ≤ low
      · rw [Nat.min_eq_left hless, heq]
        exact hl.lowReach frame hframe
      · rw [Nat.min_eq_right (by omega), ← heq]
        exact ⟨w, hw, hlow, hreach⟩
    · exact hl.lowReach frame hframe
  · exact hl.down
  · exact hl.up
  · intro u hu w' hw' hexamined frame howner
    exact Nat.le_trans (hle frame.path) (hl.lowest u hu w' hw' hexamined frame howner)

section

variable {frame : Frame α} {below : List (Frame α)}

theorem Ordered.frame_lt (h : s.Ordered nodes deps) (hwork : s.work = frame :: below)
    {other : Frame α} (hother : other ∈ below) : s.indexOf other.path < s.indexOf frame.path := by
  have hframes := h.frames
  rw [hwork] at hframes
  exact (List.pairwise_cons.1 hframes).1 other hother

omit [DecidableEq α] in
/-- Once all edges of the top node are examined, what is examined without its frame is examined
with it. -/
theorem examined_left (hwork : s.work = frame :: below)
    (hdone : (deps frame.path)[frame.depIndex]? = none) {v w : α}
    (h : Examined deps { s with work := below } v w) : Examined deps s v w := by
  refine ⟨h.1, fun other hother hpath => ?_⟩
  rw [hwork] at hother
  cases List.mem_cons.1 hother with
  | inl heq =>
    rw [heq] at hpath ⊢
    rw [← hpath, List.take_of_length_le (List.getElem?_eq_none_iff.1 hdone), hpath]
    exact h.1
  | inr hbelow => exact h.2 other hbelow hpath

theorem Ordered.left (h : s.Ordered nodes deps) (hwork : s.work = frame :: below)
    (hdone : (deps frame.path)[frame.depIndex]? = none) :
    Ordered nodes deps { s with work := below } where
  known := h.known
  below := h.below
  sorted := h.sorted
  stacked := h.stacked
  onStack := h.onStack
  frames := by
    have hframes := h.frames
    rw [hwork] at hframes
    exact (List.pairwise_cons.1 hframes).2
  framed other hother := by
    apply h.framed
    rw [hwork]
    exact List.mem_cons_of_mem _ hother
  examined v w hv hexamined := h.examined v w hv (examined_left hwork hdone hexamined)

/-- A node that is no lowest one of its component leaves its number to its parent. -/
theorem Linked.left (h : s.Linked deps) (ho : s.Ordered nodes deps) {parent : Frame α}
    {rest : List (Frame α)} (hwork : s.work = frame :: parent :: rest)
    (hdone : (deps frame.path)[frame.depIndex]? = none)
    (hlow : s.lowOf frame.path < s.indexOf frame.path)
    (hparent : s.lowOf parent.path ≤ s.lowOf frame.path) :
    Linked deps { s with work := parent :: rest } := by
  have hmem : ∀ other ∈ parent :: rest, other ∈ s.work := fun other hother => by
    rw [hwork]
    exact List.mem_cons_of_mem _ hother
  have hframe : frame ∈ s.work := by
    rw [hwork]
    exact List.mem_cons_self
  constructor
  · exact fun other hother => h.lows other (hmem other hother)
  · exact fun other hother => h.lowLe other (hmem other hother)
  · exact fun other hother => h.lowReach other (hmem other hother)
  · exact fun other hother => h.down other (hmem other hother)
  · intro v hv
    obtain ⟨other, hother, hle, hpath⟩ := h.up v hv
    rw [hwork] at hother
    cases List.mem_cons.1 hother with
    | inr hbelow => exact ⟨other, hbelow, hle, hpath⟩
    | inl heq =>
      -- The node that the number is of reaches a frame below.
      obtain ⟨w, hw, hindex, hreach⟩ := h.lowReach frame hframe
      obtain ⟨lower, hlower, hlower_le, hup⟩ := h.up w hw
      rw [heq] at hle hpath
      rw [hwork] at hlower
      cases List.mem_cons.1 hlower with
      | inl hsame =>
        rw [hsame] at hlower_le
        omega
      | inr hbelow =>
        refine ⟨lower, hbelow, ?_, hpath.trans (hreach.trans hup)⟩
        change s.indexOf lower.path ≤ s.indexOf v
        omega
  · intro v hv w hw hexamined owner howner
    obtain ⟨howner, hle, hnewest⟩ := howner
    have hexamined := examined_left hwork hdone hexamined
    by_cases hover : s.indexOf frame.path ≤ s.indexOf v
    · have howned : s.Owner v frame := by
        refine ⟨hframe, hover, fun other hother _ => ?_⟩
        rw [hwork] at hother
        cases List.mem_cons.1 hother with
        | inl heq => exact Nat.le_of_eq (by rw [heq])
        | inr hbelow => exact Nat.le_of_lt (ho.frame_lt hwork hbelow)
      have hlowest := h.lowest v hv w hw hexamined frame howned
      have hnewer := hnewest parent List.mem_cons_self (by
        have hlt := ho.frame_lt hwork List.mem_cons_self
        change s.indexOf parent.path ≤ s.indexOf v
        omega)
      have hsame : owner.path = parent.path := by
        cases List.mem_cons.1 howner with
        | inl heq => rw [heq]
        | inr hrest =>
          have hlt := (ho.left hwork hdone).frame_lt rfl hrest
          change s.indexOf owner.path < s.indexOf parent.path at hlt
          change s.indexOf parent.path ≤ s.indexOf owner.path at hnewer
          omega
      change s.lowOf owner.path ≤ s.indexOf w
      rw [hsame]
      omega
    · refine h.lowest v hv w hw hexamined owner ⟨hmem owner howner, hle, fun other hother hother_le => ?_⟩
      rw [hwork] at hother
      cases List.mem_cons.1 hother with
      | inl heq =>
        rw [heq] at hother_le
        exact absurd hother_le hover
      | inr hbelow => exact hnewest other hbelow hother_le

end

end State

end Tarjan
