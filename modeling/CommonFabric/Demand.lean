import CommonFabric.JsSet
import Mathlib.Algebra.BigOperators.Group.List.Basic
import Mathlib.Algebra.Order.BigOperators.Group.List
import Mathlib.Algebra.GroupWithZero.Nat
import Mathlib.Algebra.Order.Group.Nat
import Mathlib.Logic.Function.Basic

/-!
# Demand by counted references

In a graph of readers and writers some nodes hold demand of their own, and a node is
demanded when such a node can be reached from it along its readers. A count beside every
node stands for this: the number of its live readers, where a node is live if it holds
demand of its own or its count is positive. A node that comes alive waits to hand its
reference on to each of its writers, which the rules below do one at a time. No count tells
by itself that its references are more than circular, so a node that loses support is
counted again from outside of everything it may support.
-/

namespace Demand

structure Graph (α : Type) where
  readers : α → JsSet α
  writers : α → JsSet α
  active : α → Bool
  /-- Whether a node holds demand of its own. -/
  root : α → Bool

variable {α : Type}

structure Graph.Coherent (g : Graph α) : Prop where
  inverse : ∀ w r, r ∈ g.readers w ↔ w ∈ g.writers r
  irreflexive : ∀ a, a ∉ g.readers a

inductive Demanded (g : Graph α) : α → Prop
  | root {a : α} : g.active a = true → g.root a = true → Demanded g a
  | reader {a r : α} : g.active a = true → r ∈ g.readers a → Demanded g r → Demanded g a

theorem Demanded.active {g : Graph α} {a : α} (h : Demanded g a) : g.active a = true := by
  cases h <;> assumption

def live (g : Graph α) (refs : α → Int) (a : α) : Bool :=
  g.active a && (g.root a || decide (0 < refs a))

theorem live_iff {g : Graph α} {refs : α → Int} {a : α} :
    live g refs a = true ↔ g.active a = true ∧ (g.root a = true ∨ 0 < refs a) := by
  simp [live]

/-- Demand reaches a node in any graph that keeps what reached it: its readers outside of
what changed, and its roots. -/
theorem Demanded.outside {g g' : Graph α} {inside : α → Prop} {a : α} (h : Demanded g a)
    (ha : ¬inside a)
    (hclosed : ∀ w r, r ∈ g.readers w → g.active w = true → ¬inside w → ¬inside r)
    (hactive : ∀ a, ¬inside a → g.active a = true → g'.active a = true)
    (hroot : ∀ a, ¬inside a → g.root a = true → g'.root a = true)
    (hreaders : ∀ w r, ¬inside w → r ∈ g.readers w → r ∈ g'.readers w) : Demanded g' a := by
  induction h with
  | root hact hrt => exact .root (hactive _ ha hact) (hroot _ ha hrt)
  | reader hact hmem _ ih =>
    exact .reader (hactive _ ha hact) (hreaders _ _ ha hmem) (ih (hclosed _ _ hmem hact ha))

/-- Demand survives in a graph whose nodes keep their edges, or hold demand instead. -/
theorem Demanded.mono {g g' : Graph α} {a : α} (h : Demanded g a)
    (hactive : ∀ a, Demanded g a → g'.active a = true)
    (hroot : ∀ a, Demanded g a → g.root a = true → g'.root a = true)
    (hreaders : ∀ w r, Demanded g w → r ∈ g.readers w → g'.root w = true ∨ r ∈ g'.readers w) :
    Demanded g' a := by
  induction h with
  | root hact hrt => exact .root (hactive _ (.root hact hrt)) (hroot _ (.root hact hrt) hrt)
  | reader hact hmem hd ih =>
    rcases hreaders _ _ (.reader hact hmem hd) hmem with hrt | hmem'
    · exact .root (hactive _ (.reader hact hmem hd)) hrt
    · exact .reader (hactive _ (.reader hact hmem hd)) hmem' ih

variable [DecidableEq α]

/-- A live node whose references its writers have. -/
def handed (g : Graph α) (refs : α → Int) (waiting : List α) (a : α) : Bool :=
  live g refs a && decide (a ∉ waiting)

/-- Every count is right but for the nodes that wait to hand their references on. -/
structure Pending (g : Graph α) (refs : α → Int) (waiting : List α) : Prop where
  counted : ∀ a, g.active a = true → refs a = (g.readers a).count (handed g refs waiting)
  sound : ∀ a, live g refs a = true → Demanded g a
  awake : ∀ a ∈ waiting, live g refs a = true
  nodup : waiting.Nodup

/-- The counts are what the demand of the graph makes them. -/
def Exact (g : Graph α) (refs : α → Int) : Prop := Pending g refs []

theorem handed_nil (g : Graph α) (refs : α → Int) : handed g refs [] = live g refs := by
  funext a
  simp [handed]

theorem exact_iff {g : Graph α} {refs : α → Int} :
    Exact g refs ↔ (∀ a, g.active a = true → refs a = (g.readers a).count (live g refs)) ∧
      ∀ a, live g refs a = true → Demanded g a := by
  constructor
  · intro h
    exact ⟨fun a ha => handed_nil g refs ▸ h.counted a ha, h.sound⟩
  · rintro ⟨hcounted, hsound⟩
    exact ⟨fun a ha => by rw [handed_nil]; exact hcounted a ha, hsound, by simp, List.nodup_nil⟩

namespace Exact

variable {g : Graph α} {refs refs' : α → Int}

theorem counted (h : Exact g refs) {a : α} (ha : g.active a = true) :
    refs a = (g.readers a).count (live g refs) := (exact_iff.1 h).1 a ha

theorem live_iff_demanded (h : Exact g refs) (a : α) :
    live g refs a = true ↔ Demanded g a := by
  constructor
  · exact Pending.sound h a
  · intro hd
    induction hd with
    | root hact hrt => exact live_iff.2 ⟨hact, .inl hrt⟩
    | reader hact hmem _ ih =>
      refine live_iff.2 ⟨hact, .inr ?_⟩
      rw [h.counted hact]
      exact Int.natCast_pos.2 (JsSet.count_pos.2 ⟨_, hmem, ih⟩)

/-- Demand settles the counts of the active nodes. -/
theorem unique (h : Exact g refs) (h' : Exact g refs') {a : α} (ha : g.active a = true) :
    refs a = refs' a := by
  have hlive : live g refs = live g refs' := by
    funext b
    rw [Bool.eq_iff_iff, h.live_iff_demanded, h'.live_iff_demanded]
  rw [h.counted ha, h'.counted ha, hlive]

end Exact

/-- The counts depend on who reads a node, whatever is kept of whom it reads. -/
theorem Exact.congr_writers {g g' : Graph α} {refs : α → Int} (h : Exact g refs)
    (hreaders : g'.readers = g.readers) (hactive : g'.active = g.active)
    (hroot : g'.root = g.root) : Exact g' refs := by
  have hlive : live g' refs = live g refs := by
    funext a
    rw [live, live, hactive, hroot]
  refine exact_iff.2 ⟨fun a ha => ?_, fun a ha => ?_⟩
  · rw [hactive] at ha
    rw [hlive, hreaders, h.counted ha]
  · refine ((h.live_iff_demanded a).1 (hlive ▸ ha)).mono (fun b hb => ?_) (fun b _ hb => ?_)
      fun w r _ hr => .inr ?_
    · rw [hactive]
      exact hb.active
    · rw [hroot]
      exact hb
    · rw [hreaders]
      exact hr

/-- One writer gains a reference, and waits in turn if it was not live. -/
def passOn (g : Graph α) (s : (α → Int) × List α) (w : α) : (α → Int) × List α :=
  if g.active w then
    (Function.update s.1 w (s.1 w + 1), if live g s.1 w then s.2 else w :: s.2)
  else s

/-- The reader `r` is handing its references on, with the writers in `todo` to come. -/
structure Passing (g : Graph α) (refs : α → Int) (waiting : List α) (r : α) (todo : List α) :
    Prop where
  counted : ∀ a, g.active a = true → refs a = (g.readers a).count fun x =>
    handed g refs waiting x && !(decide (x = r) && decide (a ∈ todo))
  sound : ∀ a, live g refs a = true → Demanded g a
  awake : ∀ a ∈ waiting, live g refs a = true
  nodup : waiting.Nodup
  reader : handed g refs waiting r = true

variable {g : Graph α} {refs : α → Int} {waiting : List α} {r : α}

theorem live_update {w : α} (hw : g.active w = true) (hnonneg : 0 ≤ refs w) (a : α) :
    live g (Function.update refs w (refs w + 1)) a =
      if a = w then true else live g refs a := by
  by_cases ha : a = w
  · subst ha
    have : 0 < refs a + 1 := by omega
    simp [live, hw, this]
  · simp [live, ha]

/-- What was handed on stays so, and a node that comes alive has not handed on. -/
theorem handed_passOn {w : α} (hnonneg : g.active w = true → 0 ≤ refs w) :
    handed g (passOn g (refs, waiting) w).1 (passOn g (refs, waiting) w).2 =
      handed g refs waiting := by
  rw [passOn]
  split
  case isFalse => rfl
  case isTrue hw =>
    funext a
    simp only [handed, live_update hw (hnonneg hw)]
    by_cases ha : a = w
    · subst ha
      cases hlive : live g refs a <;> simp
    · cases hlive : live g refs w <;> simp [ha]

theorem Pending.pop (h : Pending g refs (r :: waiting)) (hg : g.Coherent) :
    Passing g refs waiting r (g.writers r).items := by
  have hr : r ∉ waiting := (List.nodup_cons.1 h.nodup).1
  refine ⟨fun a ha => ?_, h.sound, fun a ha => h.awake a (List.mem_cons_of_mem _ ha),
    (List.nodup_cons.1 h.nodup).2, by simp [handed, h.awake r List.mem_cons_self, hr]⟩
  rw [h.counted a ha]
  refine congrArg _ (JsSet.count_congr (fun _ => Iff.rfl) fun x hx => ?_)
  by_cases hxr : x = r
  · subst hxr
    have hmem : a ∈ (g.writers x).items := (hg.inverse a x).1 hx
    simp [handed, hmem]
  · simp [handed, hxr]

theorem Passing.step {w : α} {todo : List α} (h : Passing g refs waiting r (w :: todo))
    (hw : r ∈ g.readers w) (hnew : w ∉ todo) :
    Passing g (passOn g (refs, waiting) w).1 (passOn g (refs, waiting) w).2 r todo := by
  have hnonneg : ∀ a, g.active a = true → 0 ≤ refs a := by
    intro a ha
    rw [h.counted a ha]
    exact Int.natCast_nonneg _
  have hhanded : handed g (passOn g (refs, waiting) w).1 (passOn g (refs, waiting) w).2 =
      handed g refs waiting := handed_passOn (hnonneg w)
  have hreader := h.reader
  have hr : live g refs r = true := by
    rw [handed, Bool.and_eq_true] at hreader
    exact hreader.1
  refine ⟨fun a ha => ?_, fun a ha => ?_, fun a ha => ?_, ?_, by rw [hhanded]; exact hreader⟩
  · -- only the count of `w` moves, by the reference of `r`
    rw [hhanded]
    by_cases haw : a = w
    · subst haw
      have hcount := JsSet.count_succ hw
        (p := fun x => handed g refs waiting x && !(decide (x = r) && decide (a ∈ a :: todo)))
        (q := fun x => handed g refs waiting x && !(decide (x = r) && decide (a ∈ todo)))
        (by simp) (by simp [hreader, hnew]) (fun b _ hb => by simp [hb])
      rw [hcount]
      have hold := h.counted a ha
      simp only [passOn, ha, if_true, Function.update_self, hold]
      push_cast
      rfl
    · have hrefs : (passOn g (refs, waiting) w).1 a = refs a := by
        rw [passOn]
        split
        · simp [haw]
        · rfl
      rw [hrefs, h.counted a ha]
      refine congrArg _ (JsSet.count_congr (fun _ => Iff.rfl) fun x _ => ?_)
      simp [haw]
  · rw [passOn] at ha
    split at ha
    case isFalse => exact h.sound a ha
    case isTrue hact =>
      rw [live_update hact (hnonneg w hact)] at ha
      by_cases haw : a = w
      · subst haw
        exact .reader hact hw (h.sound r hr)
      · exact h.sound a (by simpa [haw] using ha)
  · rw [passOn] at ha ⊢
    split at ha
    case isFalse hact =>
      rw [if_neg hact]
      exact h.awake a ha
    case isTrue hact =>
      rw [if_pos hact, live_update hact (hnonneg w hact)]
      by_cases haw : a = w
      · simp [haw]
      · have hmem : a ∈ waiting := by
          by_cases hlive : live g refs w = true
          · simpa [hlive] using ha
          · simpa [hlive, haw] using ha
        simpa [haw] using h.awake a hmem
  · rw [passOn]
    split
    case isFalse => exact h.nodup
    case isTrue =>
      by_cases hlive : live g refs w = true
      · simpa [hlive] using h.nodup
      · have hwait : w ∉ waiting := fun hmem => hlive (h.awake w hmem)
        simpa [hlive] using ⟨hwait, h.nodup⟩

theorem Passing.finish (h : Passing g refs waiting r []) : Pending g refs waiting :=
  ⟨fun a ha => by simpa using h.counted a ha, h.sound, h.awake, h.nodup⟩

/-- A reader hands its references on to all of its writers. -/
theorem Passing.run {todo : List α} (h : Passing g refs waiting r todo)
    (hreads : ∀ w ∈ todo, r ∈ g.readers w) (hnodup : todo.Nodup) :
    Pending g (todo.foldl (passOn g) (refs, waiting)).1
      (todo.foldl (passOn g) (refs, waiting)).2 := by
  induction todo generalizing refs waiting with
  | nil => exact h.finish
  | cons w todo ih =>
    rw [List.nodup_cons] at hnodup
    exact ih (h.step (hreads w List.mem_cons_self) hnodup.1)
      (fun w' hw' => hreads w' (List.mem_cons_of_mem _ hw')) hnodup.2

/-- The references a node lacks to be live. -/
def lacking (g : Graph α) (refs : α → Int) (a : α) : Nat :=
  if g.root a then 0 else (1 - refs a).toNat

def shortfall (g : Graph α) (nodes : List α) (refs : α → Int) : Nat :=
  (nodes.map (lacking g refs)).sum

theorem lacking_passOn (s : (α → Int) × List α) (w a : α) :
    lacking g (passOn g s w).1 a ≤ lacking g s.1 a := by
  rw [passOn]
  split
  case isFalse => exact le_refl _
  case isTrue =>
    rw [lacking, lacking]
    split
    · exact le_refl _
    · by_cases ha : a = w
      · subst ha
        simp only [Function.update_self]
        omega
      · simp [ha]

/-- A node that joins the stack lacks a reference less. -/
theorem shortfall_passOn {nodes : List α} (hnodes : ∀ a, g.active a = true → a ∈ nodes)
    (s : (α → Int) × List α) (w : α) :
    shortfall g nodes (passOn g s w).1 < shortfall g nodes s.1 ∨
      (passOn g s w).2 = s.2 ∧ shortfall g nodes (passOn g s w).1 ≤ shortfall g nodes s.1 := by
  have hle : shortfall g nodes (passOn g s w).1 ≤ shortfall g nodes s.1 :=
    List.sum_le_sum fun a _ => lacking_passOn s w a
  by_cases hact : g.active w = true
  · by_cases hlive : live g s.1 w = true
    · exact .inr ⟨by simp [passOn, hact, hlive], hle⟩
    · left
      refine List.sum_lt_sum _ _ (fun a _ => lacking_passOn s w a) ⟨w, hnodes w hact, ?_⟩
      simp only [live, hact, Bool.true_and, Bool.or_eq_true, decide_eq_true_eq, not_or] at hlive
      simp only [passOn, hact, if_true, lacking, hlive.1, Function.update_self]
      simp only [Bool.false_eq_true, if_false]
      omega
  · exact .inr ⟨by simp [passOn, hact], hle⟩

theorem shortfall_run {nodes : List α} (hnodes : ∀ a, g.active a = true → a ∈ nodes)
    (todo : List α) (s : (α → Int) × List α) :
    shortfall g nodes (todo.foldl (passOn g) s).1 < shortfall g nodes s.1 ∨
      (todo.foldl (passOn g) s).2 = s.2 ∧
        shortfall g nodes (todo.foldl (passOn g) s).1 ≤ shortfall g nodes s.1 := by
  induction todo generalizing s with
  | nil => exact .inr ⟨rfl, le_refl _⟩
  | cons w todo ih =>
    rw [List.foldl_cons]
    rcases shortfall_passOn hnodes s w with hlt | ⟨heq, hle⟩
    · rcases ih (passOn g s w) with hlt' | ⟨_, hle'⟩
      · exact .inl (hlt'.trans hlt)
      · exact .inl (lt_of_le_of_lt hle' hlt)
    · rcases ih (passOn g s w) with hlt' | ⟨heq', hle'⟩
      · exact .inl (lt_of_lt_of_le hlt' hle)
      · exact .inr ⟨heq'.trans heq, hle'.trans hle⟩

/-- A set of nodes with every writer of its readers. -/
def Closed (g : Graph α) (inside : α → Prop) : Prop :=
  ∀ w r, r ∈ g.readers w → g.active w = true → inside r → inside w

/-- Outside of some nodes the counts are right. -/
structure ExactOutside (g : Graph α) (refs : α → Int) (inside : α → Prop) : Prop where
  counted : ∀ a, g.active a = true → ¬inside a → refs a = (g.readers a).count (live g refs)
  sound : ∀ a, ¬inside a → live g refs a = true → Demanded g a

omit [DecidableEq α] in
/-- Counts inside a closed set say nothing of the nodes outside. -/
theorem ExactOutside.congr {refs' : α → Int} {inside : α → Prop}
    (h : ExactOutside g refs inside) (hclosed : Closed g inside)
    (hrefs : ∀ a, ¬inside a → refs' a = refs a) : ExactOutside g refs' inside := by
  have hlive : ∀ a, ¬inside a → live g refs' a = live g refs a := by
    intro a ha
    rw [live, live, hrefs a ha]
  refine ⟨fun a hact ha => ?_, fun a ha hl => h.sound a ha (hlive a ha ▸ hl)⟩
  rw [hrefs a ha, h.counted a hact ha]
  refine congrArg _ (JsSet.count_congr (fun _ => Iff.rfl) fun r hr => (hlive r fun hin => ?_).symm)
  exact ha (hclosed a r hr hact hin)

/-- Two graphs and their counts that differ at one node alone. -/
structure ChangedAt (origin : α) (g₀ g : Graph α) (refs₀ refs : α → Int) : Prop where
  active : ∀ a, a ≠ origin → g.active a = g₀.active a
  root : ∀ a, a ≠ origin → g.root a = g₀.root a
  readers : ∀ a r, a ≠ origin → (r ∈ g.readers a ↔ r ∈ g₀.readers a)
  refs : ∀ a, a ≠ origin → refs a = refs₀ a

namespace ChangedAt

variable {g₀ : Graph α} {refs₀ : α → Int} {origin : α} (c : ChangedAt origin g₀ g refs₀ refs)
include c

omit [DecidableEq α] in
theorem live_eq {a : α} (ha : a ≠ origin) : live g refs a = live g₀ refs₀ a := by
  rw [live, live, c.active a ha, c.root a ha, c.refs a ha]

variable (h : Exact g₀ refs₀)
include h

/-- Where the origin is as live as before, the counts elsewhere stay right. -/
theorem counted (hlive : live g refs origin = live g₀ refs₀ origin) {a : α}
    (hact : g.active a = true) (ha : a ≠ origin) : refs a = (g.readers a).count (live g refs) := by
  have hact₀ : g₀.active a = true := c.active a ha ▸ hact
  rw [c.refs a ha, h.counted hact₀]
  refine congrArg _ (JsSet.count_congr (fun r => (c.readers a r ha).symm) fun r _ => ?_)
  by_cases hr : r = origin
  · rw [hr, hlive]
  · exact (c.live_eq hr).symm

/-- What the origin loses is felt by what it supports, and nowhere else. -/
theorem outside {inside : α → Prop} (horigin : inside origin) (hclosed : Closed g inside) :
    ExactOutside g refs inside := by
  have hne : ∀ a, ¬inside a → a ≠ origin := by
    rintro a ha rfl
    exact ha horigin
  refine ⟨fun a hact ha => ?_, fun a ha hl => ?_⟩
  · have hact₀ : g₀.active a = true := c.active a (hne a ha) ▸ hact
    rw [c.refs a (hne a ha), h.counted hact₀]
    refine congrArg _ (JsSet.count_congr (fun r => (c.readers a r (hne a ha)).symm)
      fun r hr => ?_)
    have hr' : r ∈ g.readers a := (c.readers a r (hne a ha)).2 hr
    exact (c.live_eq (hne r fun hin => ha (hclosed a r hr' hact hin))).symm
  · have hd : Demanded g₀ a := (h.live_iff_demanded a).1 (c.live_eq (hne a ha) ▸ hl)
    refine hd.outside ha (fun w r hr hact hw hin => hw ?_) (fun b hb hb' => ?_)
      (fun b hb hb' => ?_) (fun w r hw hr => (c.readers w r (hne w hw)).2 hr)
    · exact hclosed w r ((c.readers w r (hne w hw)).2 hr) (c.active w (hne w hw) ▸ hact) hin
    · rw [c.active b (hne b hb)]
      exact hb'
    · rw [c.root b (hne b hb)]
      exact hb'

/-- A live node that holds demand of its own, whatever else changed at it, stays as it was. -/
theorem rooted (hlive : live g₀ refs₀ origin = true) (hact : g.active origin = true)
    (hroot : g.root origin = true)
    (hself : refs origin = (g.readers origin).count (live g₀ refs₀)) : Exact g refs := by
  have hlive' : live g refs origin = true := live_iff.2 ⟨hact, .inl hroot⟩
  have hsame : live g refs = live g₀ refs₀ := by
    funext a
    by_cases ha : a = origin
    · rw [ha, hlive', hlive]
    · exact c.live_eq ha
  refine exact_iff.2 ⟨fun a ha => ?_, fun a ha => ?_⟩
  · by_cases hao : a = origin
    · rw [hao, hself, hsame]
    · exact c.counted h (hlive'.trans hlive.symm) ha hao
  · refine ((h.live_iff_demanded a).1 (hsame ▸ ha)).mono (fun b hb => ?_) (fun b _ hb => ?_)
      fun w r _ hr => ?_
    · by_cases hbo : b = origin
      · exact hbo ▸ hact
      · rw [c.active b hbo]
        exact hb.active
    · by_cases hbo : b = origin
      · exact hbo ▸ hroot
      · rw [c.root b hbo]
        exact hb
    · by_cases hwo : w = origin
      · exact .inl (hwo ▸ hroot)
      · exact .inr ((c.readers w r hwo).2 hr)

/-- A node that was not live and counts its live readers waits if that brings it alive. -/
theorem dormant (hg : g.Coherent) (hlive : live g₀ refs₀ origin = false)
    (hself : g.active origin = true → refs origin = (g.readers origin).count (live g refs)) :
    Pending g refs (if live g refs origin then [origin] else []) := by
  have hhanded : handed g refs (if live g refs origin then [origin] else []) =
      live g₀ refs₀ := by
    funext a
    by_cases ha : a = origin
    · subst ha
      cases hl : live g refs a <;> simp [handed, hl, hlive]
    · cases hl : live g refs origin <;> simp [handed, ha, c.live_eq ha]
  have hdemanded : ∀ a, Demanded g₀ a → Demanded g a := by
    have hne : ∀ b, Demanded g₀ b → b ≠ origin := by
      rintro b hb rfl
      rw [← h.live_iff_demanded, hlive] at hb
      cases hb
    intro a ha
    refine ha.mono (fun b hb => ?_) (fun b hd hb => ?_) fun w r hd hr => ?_
    · rw [c.active b (hne b hb)]
      exact hb.active
    · rw [c.root b (hne b hd)]
      exact hb
    · exact .inr ((c.readers w r (hne w hd)).2 hr)
  have hsound : ∀ a, a ≠ origin → live g refs a = true → Demanded g a := fun a ha hl =>
    hdemanded a ((h.live_iff_demanded a).1 (c.live_eq ha ▸ hl))
  refine ⟨fun a ha => ?_, fun a ha => ?_, fun a ha => ?_, ?_⟩
  · by_cases hao : a = origin
    · subst hao
      rw [hself ha]
      refine congrArg _ (JsSet.count_congr (fun _ => Iff.rfl) fun r hr => ?_)
      have hra : r ≠ a := by
        rintro rfl
        exact hg.irreflexive r hr
      rw [hhanded, c.live_eq hra]
    · have hact₀ : g₀.active a = true := c.active a hao ▸ ha
      rw [hhanded, c.refs a hao, h.counted hact₀]
      exact congrArg _ (JsSet.count_congr (fun r => (c.readers a r hao).symm) fun _ _ => rfl)
  · by_cases hao : a = origin
    · subst hao
      obtain ⟨hact, hroot | hpos⟩ := live_iff.1 ha
      · exact .root hact hroot
      · rw [hself hact] at hpos
        obtain ⟨r, hr, hlr⟩ := JsSet.count_pos.1 (Int.natCast_pos.1 hpos)
        refine .reader hact hr (hsound r ?_ hlr)
        rintro rfl
        exact hg.irreflexive r hr
    · exact hsound a hao ha
  · by_cases hl : live g refs origin = true
    · rw [if_pos hl] at ha
      obtain rfl := List.mem_singleton.1 ha
      exact hl
    · rw [if_neg hl] at ha
      cases ha
  · split
    · exact List.nodup_singleton _
    · exact List.nodup_nil

/-- A node that no longer takes part, and reads nothing, leaves the others as they were. -/
theorem removed (hact : g.active origin = false) (hreads : ∀ a, origin ∉ g.readers a) :
    Exact g refs := by
  have hout : ExactOutside g refs (· = origin) := c.outside h rfl fun w r hr _ hro =>
    absurd (hro ▸ hr) (hreads w)
  have hne : ∀ a, g.active a = true → a ≠ origin := by
    rintro a ha rfl
    rw [hact] at ha
    cases ha
  exact exact_iff.2 ⟨fun a ha => hout.counted a ha (hne a ha),
    fun a ha => hout.sound a (hne a (live_iff.1 ha).1) ha⟩

end ChangedAt

/-- A new edge, whose reader has a reference to hand on if it is live. -/
theorem Exact.link {g' : Graph α} {w d : α} (h : Exact g refs) (hactive : g'.active = g.active)
    (hroot : g'.root = g.root) (hnew : d ∉ g.readers w)
    (hreaders : ∀ a r, r ∈ g'.readers a ↔ r ∈ g.readers a ∨ a = w ∧ r = d) :
    if live g refs d then Passing g' refs [] d [w] else Exact g' refs := by
  have hlive : live g' refs = live g refs := by
    funext a
    rw [live, live, hactive, hroot]
  have hsound : ∀ a, live g' refs a = true → Demanded g' a := by
    intro a ha
    refine ((h.live_iff_demanded a).1 (hlive ▸ ha)).mono (fun b hb => ?_) (fun b _ hb => ?_)
      fun b r _ hr => .inr ((hreaders b r).2 (.inl hr))
    · rw [hactive]
      exact hb.active
    · rw [hroot]
      exact hb
  -- a test that leaves the new reader out counts what it did
  have hcount : ∀ a (p : α → Bool), p d = false ∨ a ≠ w →
      (g'.readers a).count p = (g.readers a).count p := by
    intro a p hp
    by_cases haw : a = w
    · subst haw
      have hadd : (g'.readers a).count p = ((g.readers a).add d).count p := by
        refine JsSet.count_congr (fun r => ?_) fun _ _ => rfl
        rw [hreaders, JsSet.mem_add]
        simp [or_comm]
      rw [hadd, JsSet.count_add_of_not_mem hnew, hp.resolve_right (by simp)]
      rfl
    · refine JsSet.count_congr (fun r => ?_) fun _ _ => rfl
      rw [hreaders]
      simp [haw]
  split
  case isTrue hd =>
    refine ⟨fun a ha => ?_, hsound, by simp, List.nodup_nil, by simp [handed, hlive, hd]⟩
    rw [hactive] at ha
    rw [h.counted ha]
    by_cases haw : a = w
    · rw [hcount a _ (.inl (by simp [haw]))]
      refine congrArg _ (JsSet.count_congr (fun _ => Iff.rfl) fun r hr => ?_)
      have hrd : r ≠ d := by
        rintro rfl
        exact hnew (haw ▸ hr)
      simp [handed, hlive, hrd]
    · rw [hcount a _ (.inr haw)]
      refine congrArg _ (JsSet.count_congr (fun _ => Iff.rfl) fun r _ => ?_)
      simp [handed, hlive, haw]
  case isFalse hd =>
    refine exact_iff.2 ⟨fun a ha => ?_, hsound⟩
    rw [hactive] at ha
    rw [h.counted ha, hlive, hcount a _ (.inl (by simpa using hd))]

/-- A closed set counted again: each node of it counts its live readers outside, and those
alive by that, or by themselves, wait. -/
theorem ExactOutside.reseed {region : JsSet α} {seeds : List α}
    (h : ExactOutside g refs (· ∈ region)) (hclosed : Closed g (· ∈ region))
    (hregion : ∀ a ∈ region, refs a =
      (g.readers a).count fun r => live g refs r && decide (r ∉ region))
    (hseeds : ∀ a, a ∈ seeds ↔ a ∈ region ∧ live g refs a = true) (hnodup : seeds.Nodup) :
    Pending g refs seeds := by
  refine ⟨fun a ha => ?_, fun a ha => ?_, fun a ha => ((hseeds a).1 ha).2, hnodup⟩
  · by_cases hin : a ∈ region
    · rw [hregion a hin]
      refine congrArg _ (JsSet.count_congr (fun _ => Iff.rfl) fun r _ => ?_)
      cases hr : live g refs r <;> simp [handed, hr, hseeds]
    · rw [h.counted a ha hin]
      refine congrArg _ (JsSet.count_congr (fun _ => Iff.rfl) fun r hr => ?_)
      have hr' : r ∉ region := fun hmem => hin (hclosed a r hr ha hmem)
      simp [handed, hseeds, hr']
  · by_cases hin : a ∈ region
    · obtain ⟨hact, hroot | hpos⟩ := live_iff.1 ha
      · exact .root hact hroot
      · rw [hregion a hin] at hpos
        obtain ⟨r, hr, hlive⟩ := JsSet.count_pos.1 (Int.natCast_pos.1 hpos)
        rw [Bool.and_eq_true, decide_eq_true_eq] at hlive
        exact .reader hact hr (h.sound r hlive.2 hlive.1)
    · exact h.sound a hin ha

/-- The demanded nodes counted at a stroke. -/
theorem Exact.of_demanded {reached : α → Bool} (hreached : ∀ a, reached a = true ↔ Demanded g a)
    (hcounted : ∀ a, g.active a = true → refs a = (g.readers a).count reached) :
    Exact g refs := by
  have hlive : live g refs = reached := by
    funext a
    rw [Bool.eq_iff_iff, live_iff, hreached]
    constructor
    · rintro ⟨hact, hroot | hpos⟩
      · exact .root hact hroot
      · rw [hcounted a hact] at hpos
        obtain ⟨r, hr, hr'⟩ := JsSet.count_pos.1 (Int.natCast_pos.1 hpos)
        exact .reader hact hr ((hreached r).1 hr')
    · intro hd
      refine ⟨hd.active, ?_⟩
      cases hd with
      | root _ hroot => exact .inl hroot
      | reader hact hr hdr =>
        right
        rw [hcounted a hact]
        exact Int.natCast_pos.2 (JsSet.count_pos.2 ⟨_, hr, (hreached _).2 hdr⟩)
  refine exact_iff.2 ⟨fun a ha => hlive ▸ hcounted a ha, fun a ha => ?_⟩
  exact (hreached a).1 (hlive ▸ ha)

end Demand
