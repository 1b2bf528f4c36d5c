import CommonFabric.TarjanClose

/-!
# Strongly connected components: the whole search

Each turn of the loop keeps the search's invariant and leaves less to do, so the loop ends, and the
search from every node ends with the components of all nodes.
-/

namespace Tarjan

variable {α : Type} [DecidableEq α] {nodes : List α} {deps : α → List α}

namespace State

variable {s : State α}

theorem Linked.reach_top (h : s.Linked deps) (ho : s.Ordered nodes deps) {frame : Frame α}
    {below : List (Frame α)} (hwork : s.work = frame :: below) :
    ∀ other ∈ s.work, Reach deps other.path frame.path := by
  have hframe : frame ∈ s.work := by
    rw [hwork]
    exact List.mem_cons_self
  intro other hother
  apply h.down other hother frame.path (ho.framed frame hframe)
  rw [hwork] at hother
  cases List.mem_cons.1 hother with
  | inl heq => exact Nat.le_of_eq (by rw [heq])
  | inr hbelow => exact Nat.le_of_lt (ho.frame_lt hwork hbelow)

theorem lower_of_le {v : α} {low : Nat} (h : s.lowOf v ≤ low) :
    s.lower v low = s.lower v (s.lowOf v) := by
  rw [lower, lower, Nat.min_eq_left h, Nat.min_self]

theorem Inv.leave_closed (h : s.Inv nodes deps) {frame : Frame α} {below : List (Frame α)}
    (hwork : s.work = frame :: below) (hdone : (deps frame.path)[frame.depIndex]? = none)
    (hlow : s.lowOf frame.path = s.indexOf frame.path) :
    ((s.close frame.path).leave frame.path below).Inv nodes deps := by
  have hclosed := h.close hwork hdone hlow
  cases below with
  | nil => exact hclosed
  | cons parent rest =>
    -- The parent's number is lower already.
    have hparent : parent ∈ s.work := by
      rw [hwork]
      exact List.mem_cons_of_mem _ List.mem_cons_self
    have hle := h.linked.lowLe parent hparent
    have hlt := h.ordered.frame_lt hwork List.mem_cons_self
    have hlower : (s.close frame.path).lower parent.path ((s.close frame.path).lowOf frame.path) =
        (s.close frame.path).lower parent.path ((s.close frame.path).lowOf parent.path) := by
      apply lower_of_le
      change s.lowOf parent.path ≤ s.lowOf frame.path
      omega
    rw [State.leave, hlower]
    obtain ⟨w, hw, hindex, hreach⟩ := hclosed.linked.lowReach parent List.mem_cons_self
    exact hclosed.lower hw hindex hreach

theorem Inv.leave (h : s.Inv nodes deps) {frame : Frame α} {below : List (Frame α)}
    (hwork : s.work = frame :: below) (hdone : (deps frame.path)[frame.depIndex]? = none)
    (hlow : s.lowOf frame.path < s.indexOf frame.path) :
    (s.leave frame.path below).Inv nodes deps := by
  have hframe : frame ∈ s.work := by
    rw [hwork]
    exact List.mem_cons_self
  obtain ⟨w, hw, hindex, hreach⟩ := h.linked.lowReach frame hframe
  cases below with
  | nil =>
    -- A node that reaches a lower one on the stack has a parent.
    obtain ⟨other, hother, hle, -⟩ := h.linked.up w hw
    rw [hwork, List.mem_singleton] at hother
    rw [hother] at hle
    omega
  | cons parent rest =>
    have hparent : parent ∈ s.work := by
      rw [hwork]
      exact List.mem_cons_of_mem _ List.mem_cons_self
    have hto := h.linked.reach_top h.ordered hwork parent hparent
    have hlowered := h.lower hw hindex (hto.trans hreach)
    have hne : parent.path ≠ frame.path := fun heq => by
      have hlt := h.ordered.frame_lt hwork List.mem_cons_self
      rw [heq] at hlt
      omega
    have hsame : (s.lower parent.path (s.lowOf frame.path)).lowOf frame.path =
        s.lowOf frame.path := by
      rw [lowOf_lower, if_neg hne]
    rw [State.leave]
    refine ⟨hlowered.ordered.left hwork hdone, ?_, ⟨hlowered.condensed.settled,
      hlowered.condensed.nodup, hlowered.condensed.componentOf, hlowered.condensed.strong,
      hlowered.condensed.first⟩⟩
    apply hlowered.linked.left hlowered.ordered hwork hdone
    · rw [hsame]
      exact hlow
    · rw [hsame, lowOf_lower, if_pos rfl]
      exact Nat.min_le_right _ _

/-- What a turn keeps; every edge leads to a node of the graph. -/
theorem Inv.step (h : s.Inv nodes deps) (hnodes : ∀ v ∈ nodes, ∀ w ∈ deps v, w ∈ nodes) :
    (Tarjan.step deps s).Inv nodes deps := by
  rw [Tarjan.step]
  cases hwork : s.work with
  | nil => exact h
  | cons frame below =>
    have hframe : frame ∈ s.work := by
      rw [hwork]
      exact List.mem_cons_self
    have hstack := h.ordered.framed frame hframe
    have hindexed := h.ordered.stacked _ hstack
    dsimp only
    cases htarget : (deps frame.path)[frame.depIndex]? with
    | some target =>
      have hedge : target ∈ deps frame.path := List.mem_of_getElem? htarget
      dsimp only
      split
      · rename_i hfound
        split
        · rename_i hon
          rw [JsSet.has_iff] at hon
          have hon := (h.ordered.onStack target).1 hon
          have hlowered := h.lower hon rfl (Relation.ReflTransGen.single hedge)
          change State.Inv nodes deps
            ((s.lower frame.path (s.indexOf target)).advance [] frame below)
          refine hlowered.advance hwork htarget hfound fun _ => ?_
          rw [lowOf_lower, if_pos rfl]
          exact Nat.min_le_right _ _
        · rename_i hoff
          change State.Inv nodes deps (s.advance [] frame below)
          refine h.advance hwork htarget hfound fun hon => ?_
          rw [JsSet.has_iff] at hoff
          exact absurd ((h.ordered.onStack target).2 hon) hoff
      · rename_i hnew
        have hne : target ≠ frame.path := fun heq => hnew (heq ▸ hindexed)
        have hdiscovered := h.discover (hnodes _ (h.ordered.known _ hindexed) target hedge) hnew
          fun other hother => (h.linked.reach_top h.ordered hwork other hother).tail hedge
        change State.Inv nodes deps ((s.discover target).advance [⟨target, 0⟩] frame below)
        refine hdiscovered.advance (by rw [State.discover, hwork]; rfl) htarget (indexed_discover.2 (.inl rfl)) fun _ => ?_
        have hle := h.linked.lowLe frame hframe
        have hlt := h.ordered.below _ hindexed
        rw [lowOf_discover, if_neg hne, indexOf_discover, if_pos rfl]
        omega
    | none =>
      obtain ⟨low, hlow⟩ := Option.isSome_iff_exists.1 (h.linked.lows frame hframe)
      obtain ⟨index, hindex⟩ := Option.isSome_iff_exists.1
        (show (s.indices.get frame.path).isSome = true from hindexed)
      have hlowOf : s.lowOf frame.path = low := by
        rw [lowOf, hlow]
        rfl
      have hindexOf : s.indexOf frame.path = index := by
        rw [indexOf, hindex]
        rfl
      dsimp only
      rw [hlow, hindex]
      split
      · rename_i heq
        exact h.leave_closed hwork htarget (by rw [hlowOf, hindexOf, Option.some.inj heq])
      · rename_i hne
        have hle := h.linked.lowLe frame hframe
        have hother : low ≠ index := fun heq => hne (congrArg some heq)
        exact h.leave hwork htarget (by omega)

theorem indexed_step {v : α} (h : s.Indexed v) : (Tarjan.step deps s).Indexed v := by
  rw [Tarjan.step]
  split
  · exact h
  · split
    · dsimp only
      split
      · split
        · exact h
        · exact h
      · exact indexed_discover.2 (.inr h)
    · split
      · unfold State.leave
        split
        · exact h
        · exact h
      · unfold State.leave
        split
        · exact h
        · exact h

/-- The turns that are left: those of the nodes not found yet and of the frames. -/
def unfound (nodes : List α) (deps : α → List α) (s : State α) : Nat :=
  ((nodes.filter fun v => !s.indices.has v).map fun v => (deps v).length + 1).sum

def unexamined (deps : α → List α) (s : State α) : Nat :=
  (s.work.map fun frame => (deps frame.path).length - frame.depIndex + 1).sum

omit [DecidableEq α] in
theorem sum_filter_le {p q : α → Bool} (f : α → Nat) (hpq : ∀ v, q v = true → p v = true)
    (xs : List α) : ((xs.filter q).map f).sum ≤ ((xs.filter p).map f).sum := by
  induction xs with
  | nil => exact Nat.le_refl _
  | cons x xs ih =>
    rw [List.filter_cons, List.filter_cons]
    by_cases hq : q x = true
    · rw [if_pos hq, if_pos (hpq x hq), List.map_cons, List.map_cons, List.sum_cons, List.sum_cons]
      omega
    · rw [if_neg hq]
      split
      · rw [List.map_cons, List.sum_cons]
        omega
      · exact ih

theorem sum_filter_lt {p q : α → Bool} (f : α → Nat) (hpq : ∀ v, q v = true → p v = true) {v : α}
    (hp : p v = true) (hq : q v = false) {xs : List α} (hv : v ∈ xs) :
    ((xs.filter q).map f).sum + f v ≤ ((xs.filter p).map f).sum := by
  induction xs with
  | nil => cases hv
  | cons x xs ih =>
    by_cases hx : x = v
    · rw [hx, List.filter_cons_of_neg (by rw [hq]; decide), List.filter_cons_of_pos hp, List.map_cons,
        List.sum_cons]
      have hle := sum_filter_le f hpq xs
      omega
    · have hrest := ih (List.mem_of_ne_of_mem (Ne.symm hx) hv)
      have hone := sum_filter_le f hpq [x]
      rw [show x :: xs = [x] ++ xs from rfl, List.filter_append, List.filter_append, List.map_append,
        List.map_append, List.sum_append, List.sum_append]
      omega

theorem unfound_discover {v : α} (hv : v ∈ nodes) (hnew : ¬s.Indexed v) :
    unfound nodes deps (s.discover v) + ((deps v).length + 1) ≤ unfound nodes deps s := by
  apply sum_filter_lt (fun v => (deps v).length + 1) _ _ _ hv
  · intro u hu
    rw [Bool.not_eq_true', Bool.eq_false_iff] at hu ⊢
    exact fun hold => hu (indexed_discover.2 (.inr hold))
  · rw [Bool.not_eq_true', Bool.eq_false_iff]
    exact hnew
  · rw [Bool.not_eq_false']
    exact indexed_discover.2 (.inl rfl)

/-- A turn leaves fewer. -/
theorem Inv.turns_step (h : s.Inv nodes deps) (hnodes : ∀ v ∈ nodes, ∀ w ∈ deps v, w ∈ nodes)
    (hwork : s.work ≠ []) :
    unfound nodes deps (Tarjan.step deps s) + unexamined deps (Tarjan.step deps s) <
      unfound nodes deps s + unexamined deps s := by
  cases hcons : s.work with
  | nil => exact absurd hcons hwork
  | cons frame below =>
    have hframe : frame ∈ s.work := by
      rw [hcons]
      exact List.mem_cons_self
    have hnode := h.ordered.known _ (h.ordered.stacked _ (h.ordered.framed frame hframe))
    have hold : unexamined deps s = (deps frame.path).length - frame.depIndex + 1 +
        (below.map fun frame => (deps frame.path).length - frame.depIndex + 1).sum := by
      rw [unexamined, hcons, List.map_cons, List.sum_cons]
    have hleave : ∀ t : State α, t.indices = s.indices → unfound nodes deps (t.leave frame.path below) +
        unexamined deps (t.leave frame.path below) < unfound nodes deps s + unexamined deps s := by
      intro t ht
      have hfound : unfound nodes deps (t.leave frame.path below) = unfound nodes deps s := by
        rw [unfound, unfound]
        unfold State.leave
        split
        · rw [ht]
        · rw [State.lower, ht]
      have hleft : unexamined deps (t.leave frame.path below) =
          (below.map fun frame => (deps frame.path).length - frame.depIndex + 1).sum := by
        rw [unexamined]
        unfold State.leave
        split
        · rfl
        · rfl
      rw [hfound, hleft, hold]
      omega
    rw [Tarjan.step, hcons]
    dsimp only
    cases htarget : (deps frame.path)[frame.depIndex]? with
    | some target =>
      have hlt := (List.getElem?_eq_some_iff.1 htarget).1
      have hedge : target ∈ deps frame.path := List.mem_of_getElem? htarget
      have hfewer : (deps frame.path).length - (frame.depIndex + 1) + 1 +
          (below.map fun frame => (deps frame.path).length - frame.depIndex + 1).sum <
            unexamined deps s := by
        rw [hold]
        omega
      dsimp only
      split
      · split
        · exact Nat.add_lt_add_left hfewer _
        · exact Nat.add_lt_add_left hfewer _
      · rename_i hnew
        have hunfound : unfound nodes deps (s.discover target) + ((deps target).length + 1) ≤
            unfound nodes deps s := unfound_discover (hnodes _ hnode target hedge) hnew
        have hsame : unfound nodes deps (State.discover
            { s with work := ⟨frame.path, frame.depIndex + 1⟩ :: below } target) =
            unfound nodes deps (s.discover target) := rfl
        have hnext : unexamined deps (State.discover
            { s with work := ⟨frame.path, frame.depIndex + 1⟩ :: below } target) =
            (deps target).length - 0 + 1 + ((deps frame.path).length - (frame.depIndex + 1) + 1 +
              (below.map fun frame => (deps frame.path).length - frame.depIndex + 1).sum) := rfl
        rw [hsame, hnext]
        omega
    | none =>
      dsimp only
      split
      · exact hleave _ rfl
      · exact hleave _ rfl

theorem Inv.loop (h : s.Inv nodes deps) (hnodes : ∀ v ∈ nodes, ∀ w ∈ deps v, w ∈ nodes)
    {fuel : Nat} (hfuel : unfound nodes deps s + unexamined deps s ≤ fuel) :
    (Tarjan.loop deps fuel s).Inv nodes deps ∧ (Tarjan.loop deps fuel s).work = [] ∧
      ∀ v, s.Indexed v → (Tarjan.loop deps fuel s).Indexed v := by
  induction fuel generalizing s with
  | zero =>
    refine ⟨h, ?_, fun _ hv => hv⟩
    by_contra hwork
    have hfewer := h.turns_step hnodes hwork
    omega
  | succ fuel ih =>
    rw [Tarjan.loop]
    split
    · rename_i hempty
      exact ⟨h, List.isEmpty_iff.1 hempty, fun _ hv => hv⟩
    · rename_i hmore
      have hfewer := h.turns_step hnodes fun hnil => hmore (List.isEmpty_iff.2 hnil)
      obtain ⟨hinv, hwork, hindexed⟩ := ih (h.step hnodes) (by omega)
      exact ⟨hinv, hwork, fun v hv => hindexed v (indexed_step hv)⟩

theorem Inv.visit (h : s.Inv nodes deps) (hwork : s.work = [])
    (hnodes : ∀ v ∈ nodes, ∀ w ∈ deps v, w ∈ nodes) {start : α} (hstart : start ∈ nodes) :
    (Tarjan.visit deps (turns nodes deps) s start).Inv nodes deps ∧
      (Tarjan.visit deps (turns nodes deps) s start).work = [] ∧
      (Tarjan.visit deps (turns nodes deps) s start).Indexed start ∧
      ∀ v, s.Indexed v → (Tarjan.visit deps (turns nodes deps) s start).Indexed v := by
  rw [Tarjan.visit]
  split
  · rename_i hfound
    exact ⟨h, hwork, hfound, fun _ hv => hv⟩
  · rename_i hnew
    have hdiscovered := h.discover hstart hnew fun frame hframe => by
      rw [hwork] at hframe
      exact (List.not_mem_nil hframe).elim
    have hfewer : unfound nodes deps (s.discover start) + ((deps start).length + 1) ≤
        unfound nodes deps s := unfound_discover hstart hnew
    have hone : unexamined deps (s.discover start) = (deps start).length - 0 + 1 := by
      rw [unexamined, State.discover, hwork]
      rfl
    have hall : unfound nodes deps s ≤ turns nodes deps := by
      have hle := sum_filter_le (p := fun _ => true) (q := fun v => !s.indices.has v)
        (fun v => (deps v).length + 1) (fun _ _ => rfl) nodes
      rw [List.filter_true] at hle
      exact hle
    obtain ⟨hinv, hend, hindexed⟩ := @Inv.loop _ _ nodes deps _ hdiscovered hnodes (turns nodes deps) (by omega)
    exact ⟨hinv, hend, hindexed start (indexed_discover.2 (.inl rfl)),
      fun v hv => hindexed v (indexed_discover.2 (.inr hv))⟩

theorem inv_initial : (initial : State α).Inv nodes deps := by
  have hnone : ∀ v : α, ¬(initial : State α).Indexed v := fun v hv => by cases hv
  constructor
  · exact
      { known := fun v hv => absurd hv (hnone v)
        below := fun v hv => absurd hv (hnone v)
        sorted := .nil
        stacked := fun _ hv => (List.not_mem_nil hv).elim
        onStack := fun _ => Iff.rfl
        frames := .nil
        framed := fun _ hframe => (List.not_mem_nil hframe).elim
        examined := fun v _ hv => absurd hv (hnone v) }
  · exact
      { lows := fun _ hframe => (List.not_mem_nil hframe).elim
        lowLe := fun _ hframe => (List.not_mem_nil hframe).elim
        lowReach := fun _ hframe => (List.not_mem_nil hframe).elim
        down := fun _ hframe => (List.not_mem_nil hframe).elim
        up := fun _ hv => (List.not_mem_nil hv).elim
        lowest := fun _ hv => (List.not_mem_nil hv).elim }
  · exact
      { settled := fun v => ⟨fun hv => (List.not_mem_nil hv).elim, fun hv => absurd hv.1 (hnone v)⟩
        nodup := List.nodup_nil
        componentOf := fun v c => by
          constructor
          · intro hget
            cases hget
          · rintro ⟨_, hget, -⟩
            cases hget
        strong := fun _ hcomponent => (List.not_mem_nil hcomponent).elim
        first := fun n v hv => by
          rw [show (initial : State α).components = [] from rfl, List.take_nil] at hv
          exact (List.not_mem_nil hv).elim }

end State

/-- The components of a graph all of whose edges lead to its nodes: they hold the nodes, each once,
and what `Condensed` says. -/
theorem condensed_sccs (hnodes : ∀ v ∈ nodes, ∀ w ∈ deps v, w ∈ nodes) :
    (sccs nodes deps).Condensed deps ∧ ∀ v, v ∈ (sccs nodes deps).components.flatten ↔ v ∈ nodes := by
  have hrun : ∀ (starts : List α) (s : State α), (∀ v ∈ starts, v ∈ nodes) → s.Inv nodes deps →
      s.work = [] →
      (starts.foldl (visit deps (turns nodes deps)) s).Inv nodes deps ∧
        (starts.foldl (visit deps (turns nodes deps)) s).work = [] ∧
        ∀ v, v ∈ starts ∨ s.Indexed v →
          (starts.foldl (visit deps (turns nodes deps)) s).Indexed v := by
    intro starts
    induction starts with
    | nil => exact fun s _ h hwork => ⟨h, hwork, fun v hv => hv.resolve_left List.not_mem_nil⟩
    | cons start starts ih =>
      intro s hstarts h hwork
      rw [List.forall_mem_cons] at hstarts
      obtain ⟨hinv, hend, hfound, hkept⟩ := h.visit hwork hnodes hstarts.1
      obtain ⟨hinv, hend, hindexed⟩ := ih _ hstarts.2 hinv hend
      refine ⟨hinv, hend, fun v hv => hindexed v ?_⟩
      rw [List.mem_cons] at hv
      obtain (heq | hlater) | hbefore := hv
      · exact .inr (heq ▸ hfound)
      · exact .inl hlater
      · exact .inr (hkept v hbefore)
  obtain ⟨hinv, hend, hindexed⟩ := hrun nodes .initial (fun _ hv => hv) State.inv_initial rfl
  refine ⟨hinv.condensed, fun v => ?_⟩
  rw [sccs, hinv.condensed.settled]
  constructor
  · exact fun hv => hinv.ordered.known v hv.1
  · intro hv
    refine ⟨hindexed v (.inl hv), fun hstack => ?_⟩
    obtain ⟨frame, hframe, -⟩ := hinv.linked.up v hstack
    rw [show (nodes.foldl (visit deps (turns nodes deps)) State.initial).work = [] from hend] at hframe
    exact List.not_mem_nil hframe

end Tarjan
