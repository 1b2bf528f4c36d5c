import CommonFabric.DependencyGraph

/-!
# Incremental liveness

Between the calls every count is what the demand of the graph makes it. Each call changes
the graph at one node, or adds one edge; what is left of the counts to settle is then passed
on from the node that came alive, or counted again upstream of the node that lost support.
-/

namespace Scheduler

open Demand

variable {Action : Type} [DecidableEq Action]

namespace DependencyGraphState

/-- The counts of a state are what its graph makes them. -/
structure Settled (s : DependencyGraphState Action) : Prop where
  coherent : s.graph.Coherent
  exact : Exact s.graph s.refs

/-- A call that leaves the graph alone and settles the counts. -/
def Settles (s s' : DependencyGraphState Action) : Prop :=
  s'.graph = s.graph ∧ Exact s.graph s'.refs

variable {s s' : DependencyGraphState Action} {a action : Action} {region : JsSet Action}

theorem Settles.settled (h : Settles s s') (hg : s.graph.Coherent) : s'.Settled :=
  ⟨h.1 ▸ hg, h.1 ▸ h.2⟩

theorem live_settled (h : s.Settled) (a : Action) :
    s.isLive a = true ↔ Demanded s.graph a := by
  rw [isLive_eq]
  exact h.exact.live_iff_demanded a

theorem refs_modifyRefs_of_registered (h : s.isRegisteredNode a = true) (f : Int → Int) :
    (s.modifyRefs a f).refs = Function.update s.refs a (f (s.refs a)) := by
  obtain ⟨node, hnode⟩ := record_of_registered h
  exact refs_modifyRefs hnode f

theorem isLive_congr (hgraph : s'.graph = s.graph) (hrefs : s'.refs a = s.refs a) :
    s'.isLive a = s.isLive a := by
  rw [isLive_eq, isLive_eq, live, live, hgraph, hrefs]

theorem propagateDemand_settles (s : DependencyGraphState Action) (stack : List Action)
    (hg : s.graph.Coherent) (h : Pending s.graph s.refs stack) :
    Settles s (s.propagateDemand stack) := by
  induction s, stack using propagateDemand.induct with
  | case1 s =>
    rw [propagateDemand]
    exact ⟨rfl, h⟩
  | case2 s reader stack ih =>
    obtain ⟨hgraph, hpass⟩ : (s.passAll reader stack).1.graph = s.graph ∧
        ((s.passAll reader stack).1.refs, (s.passAll reader stack).2) =
          (s.reverseDependencies reader).items.foldl (passOn s.graph) (s.refs, stack) :=
      foldl_passDemand_eq (s.reverseDependencies reader).items (s, stack)
    have hrun := (h.pop hg).run (fun w hw => (hg.inverse w reader).2 hw)
      (s.reverseDependencies reader).nodup
    rw [propagateDemand]
    have hpending : Pending s.graph (s.passAll reader stack).1.refs (s.passAll reader stack).2 := by
      have hpair : Pending s.graph
          ((s.passAll reader stack).1.refs, (s.passAll reader stack).2).1
          ((s.passAll reader stack).1.refs, (s.passAll reader stack).2).2 := by
        rw [hpass]
        exact hrun
      exact hpair
    obtain ⟨hgraph', hexact⟩ := ih (hgraph.symm ▸ hg) (hgraph.symm ▸ hpending)
    exact ⟨hgraph'.trans hgraph, hgraph ▸ hexact⟩

/-- A node that may wait hands its demand on, and the counts are settled. -/
theorem grant_settles (hg : s.graph.Coherent)
    (h : Pending s.graph s.refs (if s.isLive a then [a] else [])) :
    Settles s (if s.isLive a then s.grantDemandFrom a else s) := by
  split
  case isTrue hlive =>
    rw [if_pos hlive] at h
    exact propagateDemand_settles s [a] hg h
  case isFalse hlive =>
    rw [if_neg hlive] at h
    exact ⟨rfl, h⟩

theorem clearRefs_eq (actions : List Action) (s : DependencyGraphState Action) :
    (s.clearRefs actions).graph = s.graph ∧
      (s.clearRefs actions).refs = fun a => if a ∈ actions then 0 else s.refs a := by
  induction actions generalizing s with
  | nil => exact ⟨rfl, by simp [clearRefs]⟩
  | cons b actions ih =>
    have hcons : s.clearRefs (b :: actions) = (s.modifyRefs b fun _ => 0).clearRefs actions := rfl
    obtain ⟨hgraph, hrefs⟩ := ih (s.modifyRefs b fun _ => 0)
    rw [hcons]
    refine ⟨hgraph.trans (graph_modifyRefs s b _), ?_⟩
    rw [hrefs]
    funext a
    have hone : (s.modifyRefs b fun _ => 0).refs a = if a = b then 0 else s.refs a := by
      by_cases hab : a = b
      · subst hab
        rw [if_pos rfl, refs, modifyRefs]
        simp only [NodeRegistry.modify, Function.update_self]
        cases s.nodes.records a <;> rfl
      · rw [if_neg hab, refs, modifyRefs]
        simp only [NodeRegistry.modify, Function.update_of_ne hab]
        rfl
    rw [hone]
    by_cases hab : a = b <;> by_cases ha : a ∈ actions <;> simp [hab, ha]

/-- A live reader from outside of a region. -/
def supporter (s : DependencyGraphState Action) (region : JsSet Action) (reader : Action) : Bool :=
  s.isLive reader && decide (reader ∉ region)

/-- Counts inside a region say nothing of the readers outside. -/
theorem supporter_congr
    (hgraph : s'.graph = s.graph) (hrefs : ∀ a, a ∉ region → s'.refs a = s.refs a) :
    s'.supporter region = s.supporter region := by
  funext a
  by_cases ha : a ∈ region
  · simp [supporter, ha]
  · rw [supporter, supporter, isLive_congr hgraph (hrefs a ha)]

theorem countSupport_eq (hin : action ∈ region)
    (readers : List Action) (s : DependencyGraphState Action × Bool)
    (hreg : s.1.isRegisteredNode action = true) :
    (readers.foldl (countSupport region action) s).1.graph = s.1.graph ∧
      (readers.foldl (countSupport region action) s).1.refs =
        Function.update s.1.refs action
          (s.1.refs action + readers.countP (s.1.supporter region)) ∧
      (readers.foldl (countSupport region action) s).2 =
        (s.2 || readers.any (s.1.supporter region)) := by
  induction readers generalizing s with
  | nil => exact ⟨rfl, by simp, by simp⟩
  | cons reader readers ih =>
    rw [List.foldl_cons]
    by_cases hsup : s.1.supporter region reader = true
    · have hstep : countSupport region action s reader =
          (s.1.modifyRefs action (· + 1), true) := by
        simp only [supporter, Bool.and_eq_true, decide_eq_true_eq] at hsup
        rw [countSupport, if_neg hsup.2, if_pos hsup.1]
      have hrefs := refs_modifyRefs_of_registered hreg (· + 1)
      have hsame : (s.1.modifyRefs action (· + 1)).supporter region = s.1.supporter region := by
        refine supporter_congr (graph_modifyRefs _ _ _) fun a ha => ?_
        rw [hrefs, Function.update_of_ne]
        rintro rfl
        exact ha hin
      obtain ⟨hgraph', hrefs', hany⟩ := ih (s.1.modifyRefs action (· + 1), true) hreg
      rw [hstep, hgraph', hrefs', hany, hsame, hrefs, List.countP_cons_of_pos hsup]
      refine ⟨graph_modifyRefs _ _ _, ?_, by simp [hsup]⟩
      rw [Function.update_idem, Function.update_self]
      congr 1
      push_cast
      ring
    · have hstep : countSupport region action s reader = s := by
        rw [countSupport]
        by_cases hmem : reader ∈ region
        · rw [if_pos hmem]
        · rw [if_neg hmem, if_neg]
          intro hlive
          exact hsup (by simp [supporter, hlive, hmem])
      rw [hstep, List.countP_cons_of_neg hsup, List.any_cons, Bool.eq_false_of_not_eq_true hsup,
        Bool.false_or]
      exact ih s hreg

/-- The count of one node of a region. -/
theorem reseed_eq (hin : action ∈ region) (s : DependencyGraphState Action × List Action)
    (hreg : s.1.isRegisteredNode action = true) (hzero : s.1.refs action = 0) :
    (reseed region s action).1.graph = s.1.graph ∧
      (reseed region s action).1.refs = Function.update s.1.refs action
        ((s.1.dependents action).count (s.1.supporter region)) ∧
      (reseed region s action).2 =
        if s.1.graph.root action = true ∨ 0 < (s.1.dependents action).count (s.1.supporter region)
        then action :: s.2 else s.2 := by
  obtain ⟨hgraph, hrefs, hany⟩ := countSupport_eq hin (s.1.dependents action).items
    (s.1, (s.1.nodes.records action).any (s.1.isDemandRoot action)) hreg
  refine ⟨hgraph, ?_, ?_⟩
  · rw [reseed, hrefs, hzero, zero_add]
    rfl
  · rw [reseed, hany]
    have hiff : ((s.1.nodes.records action).any (s.1.isDemandRoot action) ||
        (s.1.dependents action).items.any (s.1.supporter region)) = true ↔
        s.1.graph.root action = true ∨
          0 < (s.1.dependents action).count (s.1.supporter region) := by
      rw [Bool.or_eq_true, JsSet.count_pos, List.any_eq_true]
      rfl
    simp only [hiff]

/-- The counts of a region, and who seeds the demand there. -/
theorem foldl_reseed_eq (todo : List Action)
    (s : DependencyGraphState Action × List Action) (hin : ∀ a ∈ todo, a ∈ region)
    (hreg : ∀ a ∈ todo, s.1.isRegisteredNode a = true) (hzero : ∀ a ∈ todo, s.1.refs a = 0)
    (hnodup : todo.Nodup) (hseeds : s.2.Nodup) (hnew : ∀ a ∈ todo, a ∉ s.2) :
    (todo.foldl (reseed region) s).1.graph = s.1.graph ∧
      (∀ a, (todo.foldl (reseed region) s).1.refs a =
        if a ∈ todo then ((s.1.dependents a).count (s.1.supporter region) : Int)
        else s.1.refs a) ∧
      (∀ a, a ∈ (todo.foldl (reseed region) s).2 ↔ a ∈ s.2 ∨ a ∈ todo ∧
        (s.1.graph.root a = true ∨ 0 < (s.1.dependents a).count (s.1.supporter region))) ∧
      (todo.foldl (reseed region) s).2.Nodup := by
  induction todo generalizing s with
  | nil => exact ⟨rfl, by simp, by simp, hseeds⟩
  | cons b todo ih =>
    rw [List.nodup_cons] at hnodup
    obtain ⟨hgraph, hrefs, hstack⟩ := reseed_eq (hin b List.mem_cons_self) s
      (hreg b List.mem_cons_self) (hzero b List.mem_cons_self)
    have hdep : (reseed region s b).1.dependents = s.1.dependents :=
      congrArg Graph.readers hgraph
    have hactive : (reseed region s b).1.isRegisteredNode = s.1.isRegisteredNode :=
      congrArg Graph.active hgraph
    have hsup : (reseed region s b).1.supporter region = s.1.supporter region := by
      refine supporter_congr hgraph fun a ha => ?_
      rw [hrefs, Function.update_of_ne]
      rintro rfl
      exact ha (hin a List.mem_cons_self)
    have hmem : ∀ a, a ∈ (reseed region s b).2 ↔ a ∈ s.2 ∨ a = b ∧
        (s.1.graph.root b = true ∨ 0 < (s.1.dependents b).count (s.1.supporter region)) := by
      intro a
      rw [hstack]
      split <;> rename_i hroot <;> simp [hroot, or_comm]
    have hne : ∀ a ∈ todo, a ≠ b := by
      rintro a ha rfl
      exact hnodup.1 ha
    obtain ⟨hgraph', hrefs', hmem', hnodup'⟩ := ih (reseed region s b)
      (fun a ha => hin a (List.mem_cons_of_mem _ ha))
      (fun a ha => by rw [hactive]; exact hreg a (List.mem_cons_of_mem _ ha))
      (fun a ha => by
        rw [hrefs, Function.update_of_ne (hne a ha)]
        exact hzero a (List.mem_cons_of_mem _ ha))
      hnodup.2
      (by
        rw [hstack]
        split
        · exact List.nodup_cons.2 ⟨hnew b List.mem_cons_self, hseeds⟩
        · exact hseeds)
      (fun a ha h => by
        rcases (hmem a).1 h with h | h
        · exact hnew a (List.mem_cons_of_mem _ ha) h
        · exact hne a ha h.1)
    rw [List.foldl_cons]
    refine ⟨hgraph'.trans hgraph, fun a => ?_, fun a => ?_, hnodup'⟩
    · rw [hrefs', hdep, hsup, hrefs]
      by_cases hab : a = b
      · subst hab
        simp [hnodup.1]
      · simp [hab]
    · rw [hmem', hgraph, hdep, hsup, hmem, List.mem_cons]
      by_cases hab : a = b
      · subst hab
        simp [hnodup.1]
      · simp [hab]

theorem mem_upstream {from_ : JsSet Action} :
    a ∈ s.upstream from_ ↔ ∃ b ∈ from_, Relation.ReflTransGen (Worklist.Admitted
      (fun reader => (s.reverseDependencies reader).items) s.isRegisteredNode) b a :=
  Worklist.mem_spread (fun _ hx => List.mem_reverse.1 hx)
    fun _ hx hnot => absurd (List.mem_reverse.2 hx) hnot

theorem upstream_closed (hg : s.graph.Coherent)
    (from_ : JsSet Action) : Closed s.graph (· ∈ s.upstream from_) := by
  intro w r hr hact hin
  obtain ⟨b, hb, hreach⟩ := mem_upstream.1 hin
  exact mem_upstream.2 ⟨b, hb, hreach.tail ⟨(hg.inverse w r).1 hr, hact⟩⟩

theorem registered_of_mem_upstream {from_ : JsSet Action}
    (hfrom : ∀ a ∈ from_, s.isRegisteredNode a = true) (h : a ∈ s.upstream from_) :
    s.isRegisteredNode a = true := by
  obtain ⟨b, hb, hreach⟩ := mem_upstream.1 h
  cases hreach with
  | refl => exact hfrom a hb
  | tail _ hstep => exact hstep.2

/-- Demand is withdrawn by counting again what the origin may have supported. -/
theorem withdrawDemandFrom_settles {origin : Action} (hg : s.graph.Coherent)
    (hret : s.isRegisteredNode origin = false ∨ s.graph.root origin = true → Exact s.graph s.refs)
    (hout : ∀ inside : Action → Prop, inside origin → Closed s.graph inside →
      ExactOutside s.graph s.refs inside) :
    Settles s (s.withdrawDemandFrom origin) := by
  rw [withdrawDemandFrom]
  split
  case isTrue hreg => exact ⟨rfl, hret (.inl (by simpa using hreg))⟩
  case isFalse hreg =>
    split
    case isTrue hroot => exact ⟨rfl, hret (.inr hroot)⟩
    case isFalse =>
      have horigin : ∀ a ∈ JsSet.empty.add origin, s.isRegisteredNode a = true := by
        intro a ha
        obtain rfl : a = origin := by simpa using ha
        simpa using hreg
      generalize hregion : s.upstream (JsSet.empty.add origin) = region
      have hclosed : Closed s.graph (· ∈ region) := hregion ▸ upstream_closed hg _
      have hmem : origin ∈ region := hregion ▸ mem_upstream.2 ⟨origin, by simp, .refl⟩
      have hactive : ∀ a ∈ region, s.isRegisteredNode a = true := fun a ha =>
        registered_of_mem_upstream horigin (hregion ▸ ha)
      change Settles s ((region.items.foldl (reseed region) (s.clearRefs region.items, [])).1
        |>.propagateDemand (region.items.foldl (reseed region) (s.clearRefs region.items, [])).2)
      obtain ⟨hcgraph, hcrefs⟩ := clearRefs_eq region.items s
      generalize s.clearRefs region.items = cleared at hcgraph hcrefs
      have hcactive : cleared.isRegisteredNode = s.isRegisteredNode :=
        congrArg Graph.active hcgraph
      have hcdep : cleared.dependents = s.dependents := congrArg Graph.readers hcgraph
      obtain ⟨hgraph, hrefs, hseeds, hnodup⟩ := foldl_reseed_eq region.items (cleared, [])
        (fun _ ha => ha) (fun a ha => by rw [hcactive]; exact hactive a ha)
        (fun a ha => by rw [hcrefs]; exact if_pos ha) region.nodup List.nodup_nil (by simp)
      generalize region.items.foldl (reseed region) (cleared, []) = seeded
        at hgraph hrefs hseeds hnodup
      replace hgraph : seeded.1.graph = s.graph := hgraph.trans hcgraph
      have houtside : ∀ a, a ∉ region → seeded.1.refs a = s.refs a := by
        intro a ha
        have ha' : a ∉ region.items := ha
        rw [hrefs, if_neg ha', hcrefs]
        exact if_neg ha
      -- the readers outside are as live in the end as they were when they were counted
      have hsup : cleared.supporter region =
          fun r => live s.graph seeded.1.refs r && decide (r ∉ region) := by
        have hsame : seeded.1.supporter region = cleared.supporter region := by
          refine supporter_congr (hgraph.trans hcgraph.symm) fun a ha => ?_
          rw [houtside a ha, hcrefs]
          exact (if_neg ha).symm
        rw [← hsame]
        funext r
        rw [supporter, isLive_eq, hgraph]
      have hinside : ∀ a ∈ region, seeded.1.refs a = (s.graph.readers a).count
          fun r => live s.graph seeded.1.refs r && decide (r ∉ region) := by
        intro a ha
        have ha' : a ∈ region.items := ha
        rw [hrefs, if_pos ha', hcdep, hsup]
        rfl
      have hwaiting : ∀ a, a ∈ seeded.2 ↔ a ∈ region ∧ live s.graph seeded.1.refs a = true := by
        intro a
        rw [hseeds, hcgraph, hcdep, hsup, live_iff]
        simp only [List.not_mem_nil, false_or]
        refine and_congr_right fun ha => ?_
        have hact : s.graph.active a = true := hactive a ha
        rw [hinside a ha, Int.natCast_pos]
        exact ⟨fun h => ⟨hact, h⟩, fun h => h.2⟩
      have hpending := ((hout _ hmem hclosed).congr hclosed houtside).reseed hclosed hinside
        hwaiting hnodup
      obtain ⟨hgraph', hexact⟩ := propagateDemand_settles seeded.1 seeded.2 (hgraph ▸ hg)
        (hgraph ▸ hpending)
      exact ⟨hgraph'.trans hgraph, hgraph ▸ hexact⟩

theorem link_of_mem (hg : s.graph.Coherent)
    {writer dependent : Action} (h : dependent ∈ s.dependents writer) :
    s.link writer dependent = s := by
  have h' : writer ∈ s.reverseDependencies dependent := (hg.inverse writer dependent).1 h
  rw [link, JsSet.add_of_mem h, JsSet.add_of_mem h', Function.update_eq_self,
    Function.update_eq_self]

theorem unlink_of_not_mem (hg : s.graph.Coherent)
    {writer dependent : Action} (h : dependent ∉ s.dependents writer) :
    s.unlink writer dependent = s := by
  have h' : writer ∉ s.reverseDependencies dependent :=
    fun hmem => h ((hg.inverse writer dependent).2 hmem)
  rw [unlink, JsSet.delete_of_not_mem h, JsSet.delete_of_not_mem h', Function.update_eq_self,
    Function.update_eq_self]

theorem coherent_link (hg : s.graph.Coherent)
    {writer dependent : Action} (hne : writer ≠ dependent) :
    (s.link writer dependent).graph.Coherent := by
  refine ⟨fun a r => ?_, fun a ha => ?_⟩
  · calc r ∈ (s.link writer dependent).dependents a
        ↔ r ∈ s.dependents a ∨ a = writer ∧ r = dependent := mem_update_add
      _ ↔ a ∈ s.reverseDependencies r ∨ r = dependent ∧ a = writer :=
        or_congr (hg.inverse a r) And.comm
      _ ↔ a ∈ (s.link writer dependent).reverseDependencies r := mem_update_add.symm
  · rcases mem_update_add.1 ha with h | ⟨rfl, h⟩
    · exact hg.irreflexive a h
    · exact hne h

theorem coherent_unlink (hg : s.graph.Coherent)
    (writer dependent : Action) : (s.unlink writer dependent).graph.Coherent := by
  refine ⟨fun a r => ?_, fun a ha => hg.irreflexive a (mem_update_delete.1 ha).1⟩
  calc r ∈ (s.unlink writer dependent).dependents a
      ↔ r ∈ s.dependents a ∧ ¬(a = writer ∧ r = dependent) := mem_update_delete
    _ ↔ a ∈ s.reverseDependencies r ∧ ¬(r = dependent ∧ a = writer) :=
      and_congr (hg.inverse a r) (not_congr And.comm)
    _ ↔ a ∈ (s.unlink writer dependent).reverseDependencies r := mem_update_delete.symm

theorem registerDependentEdge_settled (h : s.Settled)
    (writer dependent : Action) : (s.registerDependentEdge writer dependent).Settled := by
  rw [registerDependentEdge]
  split
  case isTrue => exact h
  case isFalse hne =>
    change (if (s.dependents writer).has dependent then s.link writer dependent
      else if s.isRegisteredNode writer && s.isLive dependent then
        if s.isLive writer then (s.link writer dependent).modifyRefs writer (· + 1)
        else ((s.link writer dependent).modifyRefs writer (· + 1)).grantDemandFrom writer
      else s.link writer dependent).Settled
    split
    case isTrue hhas =>
      rw [link_of_mem h.coherent (JsSet.has_iff.1 hhas)]
      exact h
    case isFalse hhas =>
      have hnew : dependent ∉ s.dependents writer := fun hmem => hhas (JsSet.has_iff.2 hmem)
      have hg := coherent_link h.coherent hne
      have hreads : dependent ∈ (s.link writer dependent).graph.readers writer :=
        mem_update_add.2 (.inr ⟨rfl, rfl⟩)
      have hlink : if live s.graph s.refs dependent then
          Passing (s.link writer dependent).graph s.refs [] dependent [writer]
          else Exact (s.link writer dependent).graph s.refs :=
        h.exact.link rfl rfl hnew fun a r => mem_update_add
      rw [← isLive_eq] at hlink
      by_cases hlive : s.isLive dependent = true
      · rw [if_pos hlive] at hlink
        have hpending := (hlink.step hreads (by simp)).finish
        by_cases hreg : s.isRegisteredNode writer = true
        · -- the writer counts its new reader, and hands demand on if that brings it alive
          have hact : (s.link writer dependent).graph.active writer = true := hreg
          have hlive' : live (s.link writer dependent).graph s.refs writer = s.isLive writer :=
            (isLive_eq s writer).symm
          have hrefs : ((s.link writer dependent).modifyRefs writer (· + 1)).refs =
              Function.update s.refs writer (s.refs writer + 1) :=
            refs_modifyRefs_of_registered (s := s.link writer dependent) hreg (· + 1)
          rw [passOn, if_pos hact, hlive', ← hrefs] at hpending
          rw [if_pos (by simp [hreg, hlive])]
          have hgraph := graph_modifyRefs (s.link writer dependent) writer (· + 1)
          generalize (s.link writer dependent).modifyRefs writer (· + 1) = counted
            at hpending hgraph ⊢
          rw [← hgraph] at hpending hg
          by_cases hw : s.isLive writer = true
          · rw [if_pos hw] at hpending ⊢
            exact ⟨hg, hpending⟩
          · rw [if_neg hw] at hpending ⊢
            exact (propagateDemand_settles counted [writer] hg hpending).settled hg
        · have hact : ¬(s.link writer dependent).graph.active writer = true := hreg
          rw [passOn, if_neg hact] at hpending
          rw [if_neg (by simp [hreg])]
          exact ⟨hg, hpending⟩
      · rw [if_neg hlive] at hlink
        rw [if_neg (by simp [hlive])]
        exact ⟨hg, hlink⟩

theorem unregisterDependentEdge_settled (h : s.Settled)
    (writer dependent : Action) : (s.unregisterDependentEdge writer dependent).Settled := by
  rw [unregisterDependentEdge]
  change (if (s.dependents writer).has dependent then
    (if s.isRegisteredNode writer && s.isLive dependent then
        (s.unlink writer dependent).modifyRefs writer (· - 1)
      else s.unlink writer dependent).withdrawDemandFrom writer
    else s.unlink writer dependent).Settled
  split
  case isFalse hhas =>
    rw [unlink_of_not_mem h.coherent fun hmem => hhas (JsSet.has_iff.2 hmem)]
    exact h
  case isTrue hhas =>
    have hmem : dependent ∈ s.dependents writer := JsSet.has_iff.1 hhas
    have hg := coherent_unlink h.coherent writer dependent
    -- the reader takes its reference with it, from a writer that counts it
    obtain ⟨hgraph, hrefs⟩ : (if s.isRegisteredNode writer && s.isLive dependent then
          (s.unlink writer dependent).modifyRefs writer (· - 1)
        else s.unlink writer dependent).graph = (s.unlink writer dependent).graph ∧
        (if s.isRegisteredNode writer && s.isLive dependent then
          (s.unlink writer dependent).modifyRefs writer (· - 1)
        else s.unlink writer dependent).refs =
          if s.isRegisteredNode writer && s.isLive dependent then
            Function.update s.refs writer (s.refs writer - 1) else s.refs := by
      split
      case isTrue hboth =>
        have hreg : (s.unlink writer dependent).isRegisteredNode writer = true :=
          (Bool.and_eq_true _ _ ▸ hboth).1
        exact ⟨graph_modifyRefs _ _ _, refs_modifyRefs_of_registered hreg (· - 1)⟩
      case isFalse => exact ⟨rfl, rfl⟩
    generalize (if s.isRegisteredNode writer && s.isLive dependent then
        (s.unlink writer dependent).modifyRefs writer (· - 1)
      else s.unlink writer dependent) = s' at hgraph hrefs
    have hchanged : ChangedAt writer s.graph s'.graph s.refs s'.refs := by
      rw [hgraph, hrefs]
      refine ⟨fun _ _ => rfl, fun _ _ => rfl, fun a r ha => ?_, fun a ha => ?_⟩
      · exact mem_update_delete.trans (and_iff_left fun he => ha he.1)
      · split
        · exact Function.update_of_ne ha _ _
        · rfl
    refine (withdrawDemandFrom_settles (hgraph ▸ hg) (fun hret => ?_)
      fun inside hin hclosed => hchanged.outside h.exact hin hclosed).settled (hgraph ▸ hg)
    by_cases hreg : s.isRegisteredNode writer = true
    · have hactive : s'.isRegisteredNode = s.isRegisteredNode := congrArg Graph.active hgraph
      have hroot' : s'.graph.root writer = true := hret.resolve_left (by simp [hactive, hreg])
      have hroot : s.graph.root writer = true := by
        rw [hgraph] at hroot'
        exact hroot'
      refine hchanged.rooted h.exact (live_iff.2 ⟨hreg, .inl hroot⟩)
        ((congrFun hactive writer).trans hreg) hroot' ?_
      have hcount := h.exact.counted (g := s.graph) (a := writer) hreg
      have hdelete := JsSet.count_delete_of_mem hmem (live s.graph s.refs)
      have hreaders : s'.graph.readers writer = (s.dependents writer).delete dependent := by
        rw [hgraph]
        exact Function.update_self ..
      have hdep : (s.graph.readers writer).count (live s.graph s.refs) =
        (s.dependents writer).count (live s.graph s.refs) := rfl
      rw [hrefs, hreaders, hreg, Bool.true_and, isLive_eq]
      cases hlive : live s.graph s.refs dependent
      · rw [if_neg (by simp), hcount, hdep, hdelete]
        simp [hlive]
      · rw [if_pos rfl, Function.update_self, hcount, hdep, hdelete]
        simp [hlive]
    · have hact : s'.graph.active writer = false := by
        rw [hgraph]
        exact Bool.eq_false_of_not_eq_true hreg
      have hdormant : live s.graph s.refs writer = false := by
        have : s.graph.active writer = false := Bool.eq_false_of_not_eq_true hreg
        simp [live, this]
      have hpending := hchanged.dormant h.exact (hgraph ▸ hg) hdormant (by simp [hact])
      have hlive : live s'.graph s'.refs writer = false := by simp [live, hact]
      rw [hlive] at hpending
      exact hpending

theorem not_registered_of_no_record
    (h : s.nodes.records a = none) : s.isRegisteredNode a = false := by
  by_contra hreg
  obtain ⟨node, hnode⟩ := record_of_registered (Bool.eq_true_of_not_eq_false hreg)
  rw [h] at hnode
  cases hnode

/-- A node that was dormant and counts its live readers gets what demand it now has. -/
theorem grant_of_dormant {s₀ : DependencyGraphState Action} (h : s₀.Settled) (hg : s.graph.Coherent)
    (hchanged : ChangedAt action s₀.graph s.graph s₀.refs s.refs)
    (hdormant : s₀.isLive action = false)
    (hself : s.isRegisteredNode action = true → ∃ refs : Action → Int,
      (∀ a, a ≠ action → live s.graph refs a = live s.graph s.refs a) ∧
        s.refs action = (s.dependents action).count (live s.graph refs)) :
    (if s.isLive action then s.grantDemandFrom action else s).Settled := by
  have hpending := hchanged.dormant h.exact hg (isLive_eq s₀ action ▸ hdormant) fun hact => by
    obtain ⟨refs, hsame, hcount⟩ := hself hact
    rw [hcount]
    refine congrArg _ (JsSet.count_congr (fun _ => Iff.rfl) fun r hr => hsame r ?_)
    rintro rfl
    exact hg.irreflexive r hr
  rw [← isLive_eq] at hpending
  exact (grant_settles hg hpending).settled hg

/-- A change of one node's registration or demand, and the notice of it. -/
theorem notifyNodeLivenessChange_settled {s₀ : DependencyGraphState Action}
    (h : s₀.Settled) (hdep : s.dependents = s₀.dependents)
    (hrev : s.reverseDependencies = s₀.reverseDependencies)
    (hchanged : ChangedAt action s₀.graph s.graph s₀.refs s.refs)
    (hself : s₀.isRegisteredNode action = true →
      s.isRegisteredNode action = true ∧ s.refs action = s₀.refs action) :
    (s.notifyNodeLivenessChange action (s₀.isLive action)).Settled := by
  have hg : s.graph.Coherent := by
    refine ⟨fun w r => ?_, fun a ha => ?_⟩
    · have := h.coherent.inverse w r
      rw [graph] at this ⊢
      rw [hdep, hrev]
      exact this
    · rw [graph, hdep] at ha
      exact h.coherent.irreflexive a ha
  rw [notifyNodeLivenessChange]
  split
  case h_1 hrecord =>
    have hreg : s.isRegisteredNode action = false := not_registered_of_no_record hrecord
    have hreg₀ : s₀.isRegisteredNode action = false := by
      by_contra hreg₀
      rw [(hself (Bool.eq_true_of_not_eq_false hreg₀)).1] at hreg
      cases hreg
    have hlive : s.isLive action = false := by rw [isLive, hrecord]
    have hlive₀ : s₀.isLive action = false := by
      rw [isLive_eq, live, show s₀.graph.active action = false from hreg₀]
      rfl
    have hsettled := grant_of_dormant h hg hchanged hlive₀ (by simp [hreg])
    rwa [hlive] at hsettled
  case h_2 node hrecord =>
    split
    case isTrue hlive₀ =>
      rw [isLive_eq] at hlive₀
      have hreg₀ : s₀.isRegisteredNode action = true := (live_iff.1 hlive₀).1
      obtain ⟨hreg, hrefs⟩ := hself hreg₀
      refine (withdrawDemandFrom_settles hg (fun hret => ?_)
        fun inside hin hclosed => hchanged.outside h.exact hin hclosed).settled hg
      refine hchanged.rooted h.exact hlive₀ hreg (hret.resolve_left (by simp [hreg])) ?_
      rw [hrefs, h.exact.counted hreg₀]
      exact congrArg (fun deps : Action → JsSet Action =>
        ((deps action).count (live s₀.graph s₀.refs) : Int)) hdep.symm
    case isFalse hlive₀ =>
      -- the readers are counted before the count is set, which moves no reader
      obtain ⟨hgraph, hrefs⟩ : (if s.isRegisteredNode action then
            s.modifyRefs action fun _ => (s.dependents action).count s.isLive else s).graph =
            s.graph ∧
          (if s.isRegisteredNode action then
            s.modifyRefs action fun _ => (s.dependents action).count s.isLive else s).refs =
            if s.isRegisteredNode action then
              Function.update s.refs action ((s.dependents action).count s.isLive) else s.refs := by
        split
        case isTrue hreg =>
          exact ⟨graph_modifyRefs _ _ _, refs_modifyRefs_of_registered hreg _⟩
        case isFalse => exact ⟨rfl, rfl⟩
      generalize (if s.isRegisteredNode action then
        s.modifyRefs action fun _ => (s.dependents action).count s.isLive else s) = counted
        at hgraph hrefs
      change (if counted.isLive action then counted.grantDemandFrom action else counted).Settled
      have hother : ∀ a, a ≠ action → counted.refs a = s.refs a := by
        intro a ha
        rw [hrefs]
        split
        · exact Function.update_of_ne ha _ _
        · rfl
      refine grant_of_dormant h (hgraph ▸ hg) ?_ (Bool.eq_false_of_not_eq_true hlive₀)
        fun hreg => ⟨s.refs, fun a ha => ?_, ?_⟩
      · rw [hgraph]
        exact ⟨hchanged.active, hchanged.root, hchanged.readers,
          fun a ha => (hother a ha).trans (hchanged.refs a ha)⟩
      · rw [live, live, hother a ha]
      · have hreg' : s.isRegisteredNode action = true := by
          have hactive : counted.isRegisteredNode = s.isRegisteredNode :=
            congrArg Graph.active hgraph
          rwa [hactive] at hreg
        have hcdep : counted.dependents = s.dependents := congrArg Graph.readers hgraph
        rw [hrefs, if_pos hreg', Function.update_self, hcdep, hgraph]
        exact congrArg _ (JsSet.count_congr (fun _ => Iff.rfl) fun r _ => isLive_eq s r)

/-- What makes a node a root is read off its record and three sets. -/
theorem graph_root_congr (hrecord : s'.nodes.records a = s.nodes.records a)
    (heffect : s'.nodes.isEffect a = s.nodes.isEffect a)
    (hmaterializer : s'.materializers.has a = s.materializers.has a)
    (hdemanded : s'.nodes.demandedWriters.has a = s.nodes.demandedWriters.has a) :
    s'.graph.root a = s.graph.root a := by
  have hroot : s'.isDemandRoot a = s.isDemandRoot a := by
    funext node
    rw [isDemandRoot, isDemandRoot, heffect, hmaterializer, hdemanded]
  simp only [graph, hrecord, hroot]

theorem setNodeProvisionalDemand_settled (h : s.Settled)
    (action : Action) (provisionalDemand : Bool) (passId : Option Nat) :
    (s.setNodeProvisionalDemand action provisionalDemand passId).Settled := by
  rw [setNodeProvisionalDemand]
  generalize hs : ({ s with nodes := s.nodes.modify action fun node =>
    { node with
      provisionalDemand := provisionalDemand
      provisionalDemandPass := if provisionalDemand then passId else none } } :
    DependencyGraphState Action) = s'
  have hdep : s'.dependents = s.dependents := hs ▸ rfl
  have hreg : s'.isRegisteredNode = s.isRegisteredNode := hs ▸ rfl
  have hg : s'.graph.Coherent := ⟨hs ▸ h.coherent.inverse, hs ▸ h.coherent.irreflexive⟩
  have hrefs : s'.refs = s.refs := by
    funext a
    rw [← hs, refs, refs]
    by_cases ha : a = action
    · subst ha
      simp only [NodeRegistry.modify, Function.update_self]
      cases s.nodes.records a <;> rfl
    · simp only [NodeRegistry.modify, Function.update_of_ne ha]
  have hroot : ∀ a, a ≠ action → s'.graph.root a = s.graph.root a := by
    intro a ha
    rw [← hs]
    simp only [graph, NodeRegistry.modify, Function.update_of_ne ha]
    rfl
  have hself : s'.graph.root action =
      (s.nodes.records action).any fun node =>
        s.isDemandRoot action { node with provisionalDemand := provisionalDemand } := by
    rw [← hs]
    simp only [graph, NodeRegistry.modify, Function.update_self, Option.any_map]
    rfl
  have hchanged : ChangedAt action s.graph s'.graph s.refs s'.refs :=
    ⟨fun a _ => congrFun hreg a, hroot, fun a r _ => by rw [graph, graph, hdep],
      fun a _ => congrFun hrefs a⟩
  have hcount : s.isRegisteredNode action = true →
      s'.refs action = (s'.graph.readers action).count (live s.graph s.refs) := by
    intro hact
    rw [hrefs, h.exact.counted (g := s.graph) (a := action) hact, graph, graph, hdep]
  have hdormant : s.isLive action = false →
      (if s'.isLive action then s'.grantDemandFrom action else s').Settled := fun hlive =>
    grant_of_dormant h hg hchanged hlive fun hact => by
      refine ⟨s'.refs, fun _ _ => rfl, ?_⟩
      rw [hcount (congrFun hreg action ▸ hact)]
      refine congrArg _ (JsSet.count_congr (fun _ => Iff.rfl) fun r hr => ?_)
      exact (hchanged.live_eq (by rintro rfl; exact hg.irreflexive r hr)).symm
  cases provisionalDemand with
  | true =>
    rw [if_pos rfl]
    cases hlive : s.isLive action with
    | false => simpa using hdormant hlive
    | true =>
      rw [if_neg (by simp)]
      rw [isLive_eq] at hlive
      have hact : s.isRegisteredNode action = true := (live_iff.1 hlive).1
      obtain ⟨node, hnode⟩ := record_of_registered hact
      exact ⟨hg, hchanged.rooted h.exact hlive ((congrFun hreg action).trans hact)
        (by rw [hself, hnode]; simp [isDemandRoot]) (hcount hact)⟩
  | false =>
    rw [if_neg (by simp)]
    refine (withdrawDemandFrom_settles hg (fun hret => ?_)
      fun inside hin hclosed => hchanged.outside h.exact hin hclosed).settled hg
    by_cases hact : s.isRegisteredNode action = true
    · have hroot' : s'.graph.root action = true :=
        hret.resolve_left (by simp [hreg, hact])
      have hwas : s.graph.root action = true := by
        rw [hself] at hroot'
        obtain ⟨node, hnode⟩ := record_of_registered hact
        have hstands : s.graph.root action = s.isDemandRoot action node := by
          simp only [graph, hnode, Option.any_some]
        rw [hnode] at hroot'
        rw [hstands]
        simp only [Option.any_some, isDemandRoot, Bool.or_false, Bool.or_eq_true] at hroot' ⊢
        tauto
      exact hchanged.rooted h.exact (live_iff.2 ⟨hact, .inl hwas⟩)
        ((congrFun hreg action).trans hact) hroot' (hcount hact)
    · have hact' : s.graph.active action = false := Bool.eq_false_of_not_eq_true hact
      have hlive : s.isLive action = false := by
        rw [isLive_eq, live, hact']
        rfl
      have hlive' : s'.isLive action = false := by
        rw [isLive_eq, live, show s'.graph.active action = false from
          (congrFun hreg action).trans hact']
        rfl
      have hsettled := hdormant hlive
      rw [if_neg (by simp [hlive'])] at hsettled
      exact hsettled.exact

theorem updateSchedulerActionType_settled (h : s.Settled) {isEffect : Bool}
    (hs : s.updateSchedulerActionType action isEffect = .ok s') : s'.Settled := by
  simp only [updateSchedulerActionType, Except.bind_ok_iff] at hs
  obtain ⟨nodes, hregister, hs⟩ := hs
  obtain rfl := Except.ok.inj hs
  generalize (if isEffect || s.nodes.isKnownEffect action then NodeKind.effect else .computation) =
    kind at hregister
  -- either way a record is activated that holds the references its action had
  obtain ⟨record, rfl, hrefs⟩ : ∃ record, nodes = s.nodes.activate action record ∧
      s.refs action = record.liveRefs := by
    rw [NodeRegistry.register] at hregister
    rw [refs]
    cases hrecord : s.nodes.records action with
    | none =>
      rw [hrecord] at hregister
      exact ⟨_, (Except.ok.inj hregister).symm, rfl⟩
    | some existing =>
      rw [hrecord] at hregister
      dsimp only at hregister
      split at hregister
      · cases hregister
      · exact ⟨_, (Except.ok.inj hregister).symm, rfl⟩
  have hother : ∀ a, a ≠ action →
      (s.nodes.activate action record).isEffect a = s.nodes.isEffect a ∧
        (s.nodes.activate action record).isComputation a = s.nodes.isComputation a := by
    intro a ha
    cases hkind : record.kind <;>
      simp [NodeRegistry.isEffect, NodeRegistry.isComputation, NodeRegistry.activate, hkind,
        JsSet.has_add_of_ne ha, JsSet.has_delete_of_ne ha]
  refine notifyNodeLivenessChange_settled h rfl rfl ⟨fun a ha => ?_, fun a ha => ?_,
    fun _ _ _ => Iff.rfl, fun a ha => ?_⟩ fun _ => ⟨?_, ?_⟩
  · simp only [graph, isRegisteredNode, (hother a ha).1, (hother a ha).2]
  · exact graph_root_congr (Function.update_of_ne ha ..) (hother a ha).1 rfl rfl
  · have hrecord : (s.nodes.activate action record).records a = s.nodes.records a :=
      Function.update_of_ne ha ..
    simp only [refs, hrecord]
  · cases hkind : record.kind <;>
      simp [isRegisteredNode, NodeRegistry.isEffect, NodeRegistry.isComputation,
        NodeRegistry.activate, hkind]
  · rw [hrefs, refs]
    simp [NodeRegistry.activate]

theorem updateMaterializerRegistration_settled (h : s.Settled)
    (action : Action) (envelopes : List IMemorySpaceAddress) :
    (s.updateMaterializerRegistration action envelopes).Settled := by
  refine notifyNodeLivenessChange_settled h rfl rfl ⟨fun _ _ => rfl, fun a ha => ?_,
    fun _ _ _ => Iff.rfl, fun _ _ => rfl⟩ fun hreg => ⟨hreg, rfl⟩
  refine graph_root_congr rfl rfl ?_ rfl
  dsimp only
  split
  · exact JsSet.has_delete_of_ne ha
  · rw [JsSet.has_add_of_ne ha, JsSet.has_delete_of_ne ha]

theorem reconcileDemandedWriter_settled (h : s.Settled) (action : Action) (shouldBeRoot : Bool) :
    (s.reconcileDemandedWriter action shouldBeRoot).Settled := by
  rw [reconcileDemandedWriter]
  split
  · exact h
  · refine notifyNodeLivenessChange_settled h rfl rfl ⟨fun _ _ => rfl, fun a ha => ?_,
      fun _ _ _ => Iff.rfl, fun _ _ => rfl⟩ fun hreg => ⟨hreg, rfl⟩
    refine graph_root_congr rfl rfl rfl ?_
    dsimp only
    split
    · exact JsSet.has_add_of_ne ha
    · exact JsSet.has_delete_of_ne ha

theorem foldl_settled {β : Type}
    (turn : DependencyGraphState Action → β → DependencyGraphState Action)
    (hturn : ∀ s b, Settled s → Settled (turn s b)) (todo : List β)
    (h : s.Settled) : (todo.foldl turn s).Settled := by
  induction todo generalizing s with
  | nil => exact h
  | cons b todo ih => exact ih (hturn s b h)

theorem updateDependentEdgesForLog_settled (h : s.Settled)
    (action : Action) (log : ReactivityLog) :
    (s.updateDependentEdgesForLog action log).Settled := by
  have hmem : ∀ a, action ∈ (s.updateDependentEdgesForLog action log).dependents a ↔
      a ∈ s.collectReverseDependenciesForLog action log := fun a =>
    (mem_dependents_updateDependentEdgesForLog fun w => h.coherent.inverse w action).trans
      (by rw [if_pos rfl])
  rw [updateDependentEdgesForLog] at hmem ⊢
  have hremoved := foldl_settled
    (fun s dependency => s.unregisterDependentEdge dependency action)
    (fun s w hs => unregisterDependentEdge_settled hs w action)
    ((s.reverseDependencies action).items.filter
      (· ∉ s.collectReverseDependenciesForLog action log)) h
  have hadded := foldl_settled
    (fun s dependency => s.registerDependentEdge dependency action)
    (fun s w hs => registerDependentEdge_settled hs w action)
    ((s.collectReverseDependenciesForLog action log).items.filter
      (· ∉ s.reverseDependencies action)) hremoved
  dsimp only at hmem ⊢
  generalize ((s.collectReverseDependenciesForLog action log).items.filter
    (· ∉ s.reverseDependencies action)).foldl
      (fun s dependency => s.registerDependentEdge dependency action)
      (((s.reverseDependencies action).items.filter
        (· ∉ s.collectReverseDependenciesForLog action log)).foldl
        (fun s dependency => s.unregisterDependentEdge dependency action) s) = s' at hmem hadded ⊢
  refine ⟨⟨fun w r => ?_, hadded.coherent.irreflexive⟩, hadded.exact.congr_writers rfl rfl rfl⟩
  change r ∈ s'.dependents w ↔ w ∈ Function.update s'.reverseDependencies action
    (s.collectReverseDependenciesForLog action log) r
  by_cases hr : r = action
  · subst hr
    rw [Function.update_self]
    exact hmem w
  · rw [Function.update_of_ne hr]
    exact hadded.coherent.inverse w r

theorem registerDependentsForWriterSurface_settled
    (h : s.Settled) {writer : Action} {writes : List IMemorySpaceAddress}
    (hs : s.registerDependentsForWriterSurface writer writes = .ok s') : s'.Settled := by
  simp only [registerDependentsForWriterSurface, Except.bind_ok_iff] at hs
  obtain ⟨readers, _, hs⟩ := hs
  obtain rfl := Except.ok.inj hs
  exact foldl_settled _ (fun s action hs => registerDependentEdge_settled hs writer action) _ h

theorem registerSurface_settled (h : s.Settled) {surface : List IMemorySpaceAddress}
    (hs : s.registerSurface action surface = .ok s') : s'.Settled := by
  have h' : Settled { s with writeIndex := s.writeIndex.setSurface action surface } :=
    ⟨h.coherent, h.exact⟩
  exact registerDependentsForWriterSurface_settled h' hs

theorem updateActionLog_settled (h : s.Settled) {log : ReactivityLog}
    (hs : s.updateActionLog action log = .ok s') :
    s'.Settled := by
  simp only [updateActionLog, Except.bind_ok_iff] at hs
  obtain ⟨triggerIndex, _, hs⟩ := hs
  obtain rfl := Except.ok.inj hs
  have h' : Settled { s with dependencies := Function.update s.dependencies action (some log) } :=
    ⟨h.coherent, h.exact⟩
  have hedges := updateDependentEdgesForLog_settled h' action log
  exact ⟨hedges.coherent, hedges.exact⟩

/-- An action that gave up its edges reads nothing. -/
theorem not_mem_dependents_removeReverseDependencyEdges (h : s.Settled) (action a : Action) :
    action ∉ (s.removeReverseDependencyEdges action).dependents a := by
  have hshrink : ∀ (todo : List Action) (s : DependencyGraphState Action),
      action ∈ (todo.foldl (fun s dependent => s.unregisterDependentEdge action dependent)
        s).dependents a → action ∈ s.dependents a := by
    intro todo
    induction todo with
    | nil => exact fun s hs => hs
    | cons d todo ih =>
      exact fun s hs => (mem_dependents_unregisterDependentEdge.1 (ih _ hs)).1
  intro hmem
  have hmem' := mem_dependents_foldl_unregister.1 (hshrink _ _ hmem)
  exact hmem'.2 ⟨(h.coherent.inverse a action).1 hmem'.1, rfl⟩

theorem removeReverseDependencyEdges_settled (h : s.Settled)
    (action : Action) : (s.removeReverseDependencyEdges action).Settled := by
  rw [removeReverseDependencyEdges]
  exact foldl_settled _ (fun s d hs => unregisterDependentEdge_settled hs action d) _
    (foldl_settled _ (fun s w hs => unregisterDependentEdge_settled hs w action) _ h)

/-- A node without edges leaves the counts of the others as they are, by its registration or
by what makes it a root. -/
theorem settled_of_removed {s₀ : DependencyGraphState Action}
    (h : s₀.Settled) (hdep : s.dependents = s₀.dependents)
    (hrev : s.reverseDependencies = s₀.reverseDependencies)
    (hchanged : ChangedAt action s₀.graph s.graph s₀.refs s.refs)
    (hreg : s.isRegisteredNode action = false) (hreads : ∀ a, action ∉ s₀.dependents a) :
    s.Settled := by
  have hreaders : s.graph.readers = s₀.graph.readers := hdep
  have hwriters : s.graph.writers = s₀.graph.writers := hrev
  refine ⟨⟨?_, ?_⟩, hchanged.removed h.exact hreg ?_⟩
  · rw [hreaders, hwriters]
    exact h.coherent.inverse
  · rw [hreaders]
    exact h.coherent.irreflexive
  · rw [hreaders]
    exact hreads

theorem onlyNodes_setNodeProvisionalDemand (s : DependencyGraphState Action) (action : Action)
    (provisionalDemand : Bool) (passId : Option Nat) :
    OnlyNodes s (s.setNodeProvisionalDemand action provisionalDemand passId) := by
  rw [setNodeProvisionalDemand]
  generalize hs : ({ s with nodes := s.nodes.modify action fun node =>
    { node with
      provisionalDemand := provisionalDemand
      provisionalDemandPass := if provisionalDemand then passId else none } } :
    DependencyGraphState Action) = s'
  have hs' : OnlyNodes s s' := hs ▸ ⟨_, rfl⟩
  split
  · split
    · exact hs'.trans (onlyNodes_propagateDemand s' [action])
    · exact hs'
  · exact hs'.trans (onlyNodes_withdrawDemandFrom s' action)

theorem unsubscribe_settled (h : s.Settled) (hs : s.unsubscribe action = .ok s') : s'.Settled := by
  simp only [unsubscribe, Except.bind_ok_iff] at hs
  obtain ⟨triggerIndex, _, hs⟩ := hs
  obtain rfl := Except.ok.inj hs
  have h₁ : Settled { s with
      triggerIndex := triggerIndex
      cancels := s.cancels.delete action
      dependencies := Function.update s.dependencies action none } := ⟨h.coherent, h.exact⟩
  generalize ({ s with
      triggerIndex := triggerIndex
      cancels := s.cancels.delete action
      dependencies := Function.update s.dependencies action none } :
    DependencyGraphState Action) = s₁ at h₁ ⊢
  have h₂ := removeReverseDependencyEdges_settled h₁ action
  have hreads := not_mem_dependents_removeReverseDependencyEdges h₁ action
  generalize s₁.removeReverseDependencyEdges action = s₂ at h₂ hreads ⊢
  rw [clearActionTypeTracking]
  obtain ⟨h₃, hdep⟩ : (if (s₂.nodes.records action).any (·.provisionalDemand) then
        s₂.setNodeProvisionalDemand action false none else s₂).Settled ∧
      (if (s₂.nodes.records action).any (·.provisionalDemand) then
        s₂.setNodeProvisionalDemand action false none else s₂).dependents = s₂.dependents := by
    split
    · exact ⟨setNodeProvisionalDemand_settled h₂ action false none,
        (onlyNodes_setNodeProvisionalDemand s₂ action false none).dependents⟩
    · exact ⟨h₂, rfl⟩
  generalize (if (s₂.nodes.records action).any (·.provisionalDemand) then
    s₂.setNodeProvisionalDemand action false none else s₂) = s₃ at h₃ hdep ⊢
  have hother : ∀ a, a ≠ action →
      (s₃.nodes.remove action).isEffect a = s₃.nodes.isEffect a ∧
        (s₃.nodes.remove action).isComputation a = s₃.nodes.isComputation a := by
    intro a ha
    rw [NodeRegistry.remove]
    split <;> simp [NodeRegistry.isEffect, NodeRegistry.isComputation, JsSet.has_delete_of_ne ha]
  have hrecords : (s₃.nodes.remove action).records = s₃.nodes.records := by
    rw [NodeRegistry.remove]
    split <;> rfl
  have hdemanded : (s₃.nodes.remove action).demandedWriters = s₃.nodes.demandedWriters := by
    rw [NodeRegistry.remove]
    split <;> rfl
  refine settled_of_removed h₃ rfl rfl ⟨fun a ha => ?_, fun a ha => ?_, fun _ _ _ => Iff.rfl,
    fun a _ => ?_⟩ ?_ fun a => hdep ▸ hreads a
  · simp only [graph, isRegisteredNode, (hother a ha).1, (hother a ha).2]
  · exact graph_root_congr (congrFun hrecords a) (hother a ha).1 (JsSet.has_delete_of_ne ha)
      (by rw [hdemanded])
  · simp only [refs, hrecords]
  · cases hrecord : s₃.nodes.records action with
    | none =>
      have hnot := not_registered_of_no_record hrecord
      simpa [isRegisteredNode, NodeRegistry.remove, hrecord] using hnot
    | some record =>
      have hnot : ∀ set : JsSet Action, (set.delete action).has action = false := fun set => by
        simp [Bool.eq_false_iff]
      simp [isRegisteredNode, NodeRegistry.isEffect, NodeRegistry.isComputation,
        NodeRegistry.remove, hrecord, hnot]

theorem foldl_tally_eq (reachable : JsSet Action) (writers : List Action) (hnodup : writers.Nodup)
    (s : DependencyGraphState Action) :
    (writers.foldl (fun s writer =>
      if reachable.has writer && s.isRegisteredNode writer then s.modifyRefs writer (· + 1)
      else s) s).graph = s.graph ∧
    ∀ a, (writers.foldl (fun s writer =>
      if reachable.has writer && s.isRegisteredNode writer then s.modifyRefs writer (· + 1)
      else s) s).refs a = s.refs a +
        if a ∈ writers ∧ a ∈ reachable ∧ s.isRegisteredNode a = true then 1 else 0 := by
  induction writers generalizing s with
  | nil => exact ⟨rfl, by simp⟩
  | cons w writers ih =>
    rw [List.nodup_cons] at hnodup
    rw [List.foldl_cons]
    by_cases hw : reachable.has w = true ∧ s.isRegisteredNode w = true
    · rw [if_pos (by simp [hw.1, hw.2])]
      obtain ⟨hgraph, hrefs⟩ := ih hnodup.2 (s.modifyRefs w (· + 1))
      refine ⟨hgraph.trans (graph_modifyRefs _ _ _), fun a => ?_⟩
      have hreg : (s.modifyRefs w (· + 1)).isRegisteredNode = s.isRegisteredNode := rfl
      rw [hrefs, refs_modifyRefs_of_registered hw.2, hreg]
      by_cases haw : a = w
      · subst haw
        simp [hnodup.1, hw.2, JsSet.has_iff.1 hw.1]
      · simp [haw]
    · rw [if_neg (by simpa using hw)]
      obtain ⟨hgraph, hrefs⟩ := ih hnodup.2 s
      refine ⟨hgraph, fun a => ?_⟩
      rw [hrefs]
      simp only [List.mem_cons]
      by_cases haw : a = w
      · subst haw
        rw [JsSet.has_iff] at hw
        simp [hnodup.1, hw]
      · simp [haw]

/-- The references that the readers of a list hand on. -/
theorem foldl_tally_readers_eq {reachable : JsSet Action} (readers : List Action)
    (s : DependencyGraphState Action) :
    (readers.foldl (tally reachable) s).graph = s.graph ∧
      ∀ a, (readers.foldl (tally reachable) s).refs a = s.refs a +
        if a ∈ reachable ∧ s.isRegisteredNode a = true then
          (readers.countP fun r => decide (a ∈ s.reverseDependencies r) : Int) else 0 := by
  induction readers generalizing s with
  | nil => exact ⟨rfl, by simp⟩
  | cons r readers ih =>
    obtain ⟨hgraph, hrefs⟩ := foldl_tally_eq reachable
      (s.reverseDependencies r).items (s.reverseDependencies r).nodup s
    obtain ⟨hgraph', hrefs'⟩ := ih (tally reachable s r)
    have hactive : (tally reachable s r).isRegisteredNode = s.isRegisteredNode :=
      congrArg Graph.active hgraph
    have hrev : (tally reachable s r).reverseDependencies = s.reverseDependencies :=
      congrArg Graph.writers hgraph
    rw [List.foldl_cons]
    refine ⟨hgraph'.trans hgraph, fun a => ?_⟩
    have hone : (tally reachable s r).refs a = s.refs a +
        if a ∈ s.reverseDependencies r ∧ a ∈ reachable ∧ s.isRegisteredNode a = true
        then 1 else 0 := hrefs a
    rw [hrefs', hactive, hrev, hone, List.countP_cons]
    by_cases hreach : a ∈ reachable ∧ s.isRegisteredNode a = true
    · by_cases hmem : a ∈ s.reverseDependencies r
      · simp [hreach, hmem]
        ring
      · simp [hreach, hmem]
    · simp [hreach]

/-- The counts that `recomputeLiveRefs` assigns are those of a settled state. -/
theorem recomputeLiveRefs_settles (hg : s.graph.Coherent) :
    Settles s s.recomputeLiveRefs := by
  rw [recomputeLiveRefs]
  have hroots : ∀ a, a ∈ JsSet.empty.addAll (s.nodes.all.items.filter fun action =>
      (s.nodes.records action).any (s.isDemandRoot action)) ↔
        s.isRegisteredNode a = true ∧ s.graph.root a = true := by
    intro a
    rw [JsSet.mem_addAll, List.mem_filter, JsSet.mem_items, s.nodes.kinds]
    simp [isRegisteredNode, NodeRegistry.isEffect, NodeRegistry.isComputation, graph]
  generalize JsSet.empty.addAll (s.nodes.all.items.filter fun action =>
    (s.nodes.records action).any (s.isDemandRoot action)) = roots at hroots
  obtain ⟨hcgraph, hcrefs⟩ := clearRefs_eq s.nodes.all.items s
  generalize s.clearRefs s.nodes.all.items = cleared at hcgraph hcrefs
  have hactive : cleared.isRegisteredNode = s.isRegisteredNode := congrArg Graph.active hcgraph
  have hrev : cleared.reverseDependencies = s.reverseDependencies := congrArg Graph.writers hcgraph
  have hreach : ∀ a, a ∈ cleared.upstream roots ↔ Demanded s.graph a := by
    intro a
    rw [mem_upstream, hactive, hrev]
    constructor
    · rintro ⟨b, hb, hpath⟩
      induction hpath with
      | refl => exact .root ((hroots b).1 hb).1 ((hroots b).1 hb).2
      | tail _ hstep ih => exact .reader hstep.2 ((hg.inverse _ _).2 hstep.1) ih
    · intro hd
      induction hd with
      | root hact hroot => exact ⟨_, (hroots _).2 ⟨hact, hroot⟩, .refl⟩
      | reader hact hmem _ ih =>
        obtain ⟨b, hb, hpath⟩ := ih
        exact ⟨b, hb, hpath.tail ⟨(hg.inverse _ _).1 hmem, hact⟩⟩
  generalize cleared.upstream roots = reachable at hreach
  obtain ⟨hgraph, hrefs⟩ := foldl_tally_readers_eq reachable.items cleared
  refine ⟨hgraph.trans hcgraph, Exact.of_demanded
    (fun a => (JsSet.has_iff (s := reachable)).trans (hreach a)) fun a hact => ?_⟩
  have hall : a ∈ s.nodes.all.items := by
    rw [JsSet.mem_items, s.nodes.kinds]
    simpa [graph, isRegisteredNode, NodeRegistry.isEffect, NodeRegistry.isComputation] using hact
  have hzero : cleared.refs a = 0 := by
    rw [hcrefs]
    exact if_pos hall
  -- the reached readers of a node are those reached that have it among their writers
  have hcount : (s.graph.readers a).count reachable.has =
      reachable.items.countP fun r => decide (a ∈ s.reverseDependencies r) := by
    have hswap := JsSet.count_mem_comm (s.graph.readers a) reachable
    refine Eq.trans hswap (JsSet.count_congr (fun _ => Iff.rfl) fun r _ => ?_)
    exact decide_eq_decide.2 (hg.inverse a r)
  rw [hrefs, hzero, hactive, hrev, hcount, zero_add]
  by_cases hin : a ∈ reachable
  · rw [if_pos ⟨hin, hact⟩]
  · rw [if_neg fun h => hin h.1, ← hcount]
    symm
    rw [Int.natCast_eq_zero]
    by_contra hne
    obtain ⟨r, hr, hrr⟩ := JsSet.count_pos.1 (Nat.pos_of_ne_zero hne)
    exact hin ((hreach a).2 (.reader hact hr ((hreach r).1 (JsSet.has_iff.1 hrr))))

end DependencyGraphState

open DependencyGraphState

/-- What is done to a scheduler's graph, one call at a time. -/
inductive LivenessCall (Action : Type) where
  | registerDependentEdge (writer dependent : Action)
  | unregisterDependentEdge (writer dependent : Action)
  | updateDependentEdgesForLog (action : Action) (log : ReactivityLog)
  | setNodeProvisionalDemand (action : Action) (provisionalDemand : Bool) (passId : Option Nat)
  | updateSchedulerActionType (action : Action) (isEffect : Bool)
  | updateMaterializerRegistration (action : Action) (envelopes : List IMemorySpaceAddress)
  | reconcileDemandedWriter (action : Action) (shouldBeRoot : Bool)
  | unsubscribe (action : Action)
  | registerSurface (action : Action) (surface : List IMemorySpaceAddress)
  | updateActionLog (action : Action) (log : ReactivityLog)

/-- The state after a call; a call that throws is taken as not made. -/
def LivenessCall.apply (s : DependencyGraphState Action) :
    LivenessCall Action → DependencyGraphState Action
  | .registerDependentEdge writer dependent => s.registerDependentEdge writer dependent
  | .unregisterDependentEdge writer dependent => s.unregisterDependentEdge writer dependent
  | .updateDependentEdgesForLog action log => s.updateDependentEdgesForLog action log
  | .setNodeProvisionalDemand action provisionalDemand passId =>
    s.setNodeProvisionalDemand action provisionalDemand passId
  | .updateSchedulerActionType action isEffect =>
    (s.updateSchedulerActionType action isEffect).toOption.getD s
  | .updateMaterializerRegistration action envelopes =>
    s.updateMaterializerRegistration action envelopes
  | .reconcileDemandedWriter action shouldBeRoot => s.reconcileDemandedWriter action shouldBeRoot
  | .unsubscribe action => (s.unsubscribe action).toOption.getD s
  | .registerSurface action surface => (s.registerSurface action surface).toOption.getD s
  | .updateActionLog action log => (s.updateActionLog action log).toOption.getD s

theorem settled_getD {s : DependencyGraphState Action} (h : s.Settled)
    {x : Except EngineError (DependencyGraphState Action)} (hx : ∀ s', x = .ok s' → s'.Settled) :
    (x.toOption.getD s).Settled := by
  cases x with
  | error => exact h
  | ok s' => exact hx s' rfl

theorem apply_settled {s : DependencyGraphState Action} (h : s.Settled)
    (call : LivenessCall Action) : (call.apply s).Settled := by
  cases call with
  | registerDependentEdge writer dependent =>
    exact registerDependentEdge_settled h writer dependent
  | unregisterDependentEdge writer dependent =>
    exact unregisterDependentEdge_settled h writer dependent
  | updateDependentEdgesForLog action log => exact updateDependentEdgesForLog_settled h action log
  | setNodeProvisionalDemand action provisionalDemand passId =>
    exact setNodeProvisionalDemand_settled h action provisionalDemand passId
  | updateSchedulerActionType action isEffect =>
    exact settled_getD h fun _ => updateSchedulerActionType_settled h
  | updateMaterializerRegistration action envelopes =>
    exact updateMaterializerRegistration_settled h action envelopes
  | reconcileDemandedWriter action shouldBeRoot =>
    exact reconcileDemandedWriter_settled h action shouldBeRoot
  | unsubscribe action => exact settled_getD h fun _ => unsubscribe_settled h
  | registerSurface action surface => exact settled_getD h fun _ => registerSurface_settled h
  | updateActionLog action log => exact settled_getD h fun _ => updateActionLog_settled h

theorem init_settled (identity : ScopeKeyIdentity) :
    (DependencyGraphState.init identity : DependencyGraphState Action).Settled := by
  refine ⟨⟨fun w r => ?_, fun a => JsSet.not_mem_empty a⟩, exact_iff.2 ⟨?_, ?_⟩⟩
  · exact iff_of_false (JsSet.not_mem_empty r) (JsSet.not_mem_empty w)
  · intro a ha
    cases ha
  · intro a ha
    cases (Demand.live_iff.1 ha).1

theorem run_settled (identity : ScopeKeyIdentity) (calls : List (LivenessCall Action)) :
    (calls.foldl LivenessCall.apply (DependencyGraphState.init identity)).Settled :=
  foldl_settled _ (fun _ call h => apply_settled h call) calls (init_settled identity)

/-- After any calls the references of every active node are those the demand roots give, and
a node is live if a demand root is reached from it along reader edges. -/
theorem liveRefs_eq_recomputed (identity : ScopeKeyIdentity) (calls : List (LivenessCall Action))
    (action : Action) :
    let s := calls.foldl LivenessCall.apply (DependencyGraphState.init identity)
    (action ∈ s.nodes.all → ∃ node, s.nodes.records action = some node ∧
      (s.recomputeLiveRefs.nodes.records action).map (·.liveRefs) = some node.liveRefs) ∧
    (s.isLive action = true ↔ ∃ root node, s.nodes.records root = some node ∧
      root ∈ s.nodes.all ∧ s.isDemandRoot root node = true ∧
      Relation.ReflTransGen (fun writer reader => writer ∈ s.nodes.all ∧
        reader ∈ s.dependents writer) action root) := by
  intro s
  have h : s.Settled := run_settled identity calls
  have hactive : ∀ a, a ∈ s.nodes.all ↔ s.graph.active a = true := by
    intro a
    rw [s.nodes.kinds]
    simp [graph, isRegisteredNode, NodeRegistry.isEffect, NodeRegistry.isComputation]
  have hroot : ∀ a, s.graph.root a = true ↔
      ∃ node, s.nodes.records a = some node ∧ s.isDemandRoot a node = true := by
    intro a
    simp only [graph, Option.any_eq_true]
  constructor
  · intro hall
    have hact := (hactive action).1 hall
    obtain ⟨hgraph, hexact⟩ := recomputeLiveRefs_settles h.coherent
    have hrefs := h.exact.unique hexact hact
    obtain ⟨node, hnode⟩ := record_of_registered (s := s) hact
    have hact' : s.recomputeLiveRefs.isRegisteredNode action = true :=
      (congrFun (congrArg Graph.active hgraph) action).trans hact
    obtain ⟨node', hnode'⟩ := record_of_registered hact'
    refine ⟨node, hnode, ?_⟩
    rw [refs, refs, hnode, hnode'] at hrefs
    rw [hnode']
    exact congrArg some hrefs.symm
  · rw [live_settled h]
    constructor
    · intro hd
      induction hd with
      | root hact hrt =>
        obtain ⟨node, hnode, hnodeRoot⟩ := (hroot _).1 hrt
        exact ⟨_, node, hnode, (hactive _).2 hact, hnodeRoot, .refl⟩
      | reader hact hmem _ ih =>
        obtain ⟨root, node, hnode, hall, hnodeRoot, hpath⟩ := ih
        exact ⟨root, node, hnode, hall, hnodeRoot, .head ⟨(hactive _).2 hact, hmem⟩ hpath⟩
    · rintro ⟨root, node, hnode, hall, hnodeRoot, hpath⟩
      induction hpath using Relation.ReflTransGen.head_induction_on with
      | refl => exact .root ((hactive root).1 hall) ((hroot root).2 ⟨node, hnode, hnodeRoot⟩)
      | head hstep _ ih => exact .reader ((hactive _).1 hstep.1) hstep.2 ih

end Scheduler
