import CommonFabric.JsMap
import CommonFabric.SchedulerKeys

/-!
# The instances of a fanned-out node

A served node runs once for each principal or session that demands it, as deep as its runs
have found it to be scoped. Each instance has a key; a key is clean while its last run is
current, and a generation for each key counts the causes that dirtied it.
-/

namespace Scheduler

structure FanOutInstance where
  identity : ScopeKeyIdentity
  key : ScopeKey
  deriving DecidableEq

structure InstanceRecord where
  identity : ScopeKeyIdentity
  log : Option ReactivityLog

structure FanOutNodeState where
  narrowed : Bool
  sessionPrincipals : JsSet JsString
  instances : JsMap ScopeKey InstanceRecord
  clean : JsSet ScopeKey
  dirtyGen : JsMap ScopeKey Nat

def newFanOutNodeState : FanOutNodeState := ⟨false, .empty, .empty, .empty, .empty⟩

def scopeRank : CellScope → Nat
  | .space => 0
  | .user => 1
  | .session => 2

variable (state : FanOutNodeState)

def ratchetDepthFor (identity : ScopeKeyIdentity) : CellScope :=
  if !state.narrowed then .space
  else match identity.principal with
    | some principal => if state.sessionPrincipals.has principal then .session else .user
    | none => .user

/-- Whether the ratchet moved, and the state it has learned. -/
def ratchetDiscovered (identity : ScopeKeyIdentity) (discovered : CellScope) :
    Bool × FanOutNodeState :=
  let top := scopeRank .space < scopeRank discovered && !state.narrowed
  let state := if top then { state with narrowed := true } else state
  match identity.principal with
  | some principal =>
    if discovered = .session && !state.sessionPrincipals.has principal then
      (true, { state with sessionPrincipals := state.sessionPrincipals.add principal })
    else (top, state)
  | none => (top, state)

/-- A key that cannot be resolved is absent. -/
def keyAtRatchet (identity : ScopeKeyIdentity) : Option ScopeKey :=
  (resolveScopeKey (some (ratchetDepthFor state identity)) identity).toOption

/-- Every key on an identity's chain: the broad one, and those it resolves up to the first
scope it cannot. -/
def keysOnChain (identity : ScopeKeyIdentity) : List ScopeKey :=
  DEFAULT_SCOPE_KEY :: match resolveScopeKey (some .user) identity with
    | .error _ => []
    | .ok user => user :: match resolveScopeKey (some .session) identity with
      | .error _ => []
      | .ok session => [session]

def generation (key : ScopeKey) : Nat := (state.dirtyGen.get key).getD 0

def dirtyFanOutKey (key : ScopeKey) : FanOutNodeState :=
  { state with
    clean := state.clean.delete key
    dirtyGen := state.dirtyGen.set key (generation state key + 1) }

def dirtyFanOutAll : FanOutNodeState :=
  (state.clean.items ++ state.instances.keys).foldl dirtyFanOutKey state

/-- A keyed cause dirties the instances whose identity has the key on its chain, except the
probe. Any other cause dirties every instance. -/
def dirtyFanOutForCause (cause : IMemorySpaceAddress) : FanOutNodeState :=
  match cause.scopeKey with
  | none => dirtyFanOutAll state
  | some causeKey =>
    if causeKey = DEFAULT_SCOPE_KEY then dirtyFanOutAll state
    else state.instances.entries.foldl (fun state entry =>
      if entry.1 = DEFAULT_SCOPE_KEY then state
      else if causeKey ∈ keysOnChain entry.2.identity then dirtyFanOutKey state entry.1
      else state) state

def retireFanOutKey (key : ScopeKey) : FanOutNodeState :=
  { state with
    instances := state.instances.delete key
    clean := state.clean.delete key
    dirtyGen := state.dirtyGen.delete key }

def pruneFanOutInstances (current : List FanOutInstance) : FanOutNodeState :=
  (state.instances.keys.filter fun key => key ∉ current.map (·.key)).foldl retireFanOutKey state

/-- The generation a run starts from, compared when it finishes. -/
def fanOutRunStarted (instance_ : FanOutInstance) : Nat × FanOutNodeState :=
  (generation state instance_.key,
    if state.instances.has instance_.key then state
    else { state with
      instances := state.instances.set instance_.key ⟨instance_.identity, none⟩ })

/-- The key a finished run is recorded under, at the ratchet it has moved. -/
def finishedKey (instance_ : FanOutInstance) (discovered : CellScope) : ScopeKey :=
  (keyAtRatchet (ratchetDiscovered state instance_.identity discovered).2
    instance_.identity).getD instance_.key

def fanOutRunFinished (instance_ : FanOutInstance) (discovered : CellScope) (startGen : Nat)
    (log : Option ReactivityLog) : Bool × FanOutNodeState :=
  let learned := ratchetDiscovered state instance_.identity discovered
  let key := finishedKey state instance_ discovered
  let dirtiedMeanwhile := generation learned.2 instance_.key ≠ startGen
  let state := if key ≠ instance_.key then retireFanOutKey learned.2 instance_.key else learned.2
  let kept := (state.instances.get key).bind (·.log)
  (learned.1, { state with
    instances := state.instances.set key ⟨instance_.identity, log.or kept⟩
    clean := if dirtiedMeanwhile then state.clean.delete key else state.clean.add key })

end Scheduler

namespace Scheduler

section Frames

variable (state : FanOutNodeState)

/-- The keys that an invalidation dirties, given the key its cause names. -/
def dirtiedKeys (causeKey : Option ScopeKey) : List ScopeKey :=
  match causeKey with
  | none => state.clean.items ++ state.instances.keys
  | some causeKey =>
    if causeKey = DEFAULT_SCOPE_KEY then state.clean.items ++ state.instances.keys
    else (state.instances.entries.filter fun entry =>
      entry.1 ≠ DEFAULT_SCOPE_KEY && causeKey ∈ keysOnChain entry.2.identity).map (·.1)

theorem dirtyFanOutForCause_eq (cause : IMemorySpaceAddress) :
    dirtyFanOutForCause state cause =
      (dirtiedKeys state cause.scopeKey).foldl dirtyFanOutKey state := by
  unfold dirtyFanOutForCause dirtiedKeys
  cases cause.scopeKey with
  | none => rfl
  | some causeKey =>
    by_cases hspace : causeKey = DEFAULT_SCOPE_KEY
    · simp only [hspace, if_true]
      rfl
    · simp only [hspace, if_false]
      rw [List.foldl_map, List.foldl_filter]
      congr 1
      funext state entry
      by_cases hprobe : entry.1 = DEFAULT_SCOPE_KEY <;>
        by_cases hchain : causeKey ∈ keysOnChain entry.2.identity <;> simp [hprobe, hchain]

theorem generation_dirtyFanOutKey (key k : ScopeKey) :
    generation (dirtyFanOutKey state key) k = generation state k + if key = k then 1 else 0 := by
  by_cases hk : key = k
  · subst hk
    simp [generation, dirtyFanOutKey]
  · simp [generation, dirtyFanOutKey, JsMap.get_set_other _ hk, hk]

/-- What is dirtied is no longer clean, and its generation moves on. -/
structure Dirtied (keys : List ScopeKey) (state state' : FanOutNodeState) : Prop where
  narrowed : state'.narrowed = state.narrowed
  sessionPrincipals : state'.sessionPrincipals = state.sessionPrincipals
  instances : state'.instances = state.instances
  clean : ∀ k, k ∈ state'.clean ↔ k ∉ keys ∧ k ∈ state.clean
  mono : ∀ k, generation state k ≤ generation state' k
  moved : ∀ k ∈ keys, generation state k < generation state' k

theorem dirtied_foldl (keys : List ScopeKey) :
    Dirtied keys state (keys.foldl dirtyFanOutKey state) := by
  induction keys generalizing state with
  | nil => constructor <;> simp
  | cons key keys ih =>
    have hrest := ih (dirtyFanOutKey state key)
    have hgen := generation_dirtyFanOutKey state key
    constructor
    · exact hrest.narrowed
    · exact hrest.sessionPrincipals
    · exact hrest.instances
    · intro k
      rw [List.foldl_cons, hrest.clean, List.mem_cons, not_or]
      have hmem : k ∈ (dirtyFanOutKey state key).clean ↔ k ≠ key ∧ k ∈ state.clean :=
        JsSet.mem_delete
      rw [hmem]
      tauto
    · intro k
      have hle := hrest.mono k
      rw [hgen] at hle
      exact Nat.le_trans (Nat.le_add_right _ _) hle
    · intro k hk
      have hle := hrest.mono k
      rw [hgen] at hle
      cases List.mem_cons.1 hk with
      | inl heq =>
        rw [if_pos heq.symm] at hle
        exact hle
      | inr hin =>
        have hlt := hrest.moved k hin
        rw [hgen] at hlt
        exact Nat.lt_of_le_of_lt (Nat.le_add_right _ _) hlt

/-- What is retired is gone from the instances, the clean keys and the generations. -/
structure Retired (keys : List ScopeKey) (state state' : FanOutNodeState) : Prop where
  narrowed : state'.narrowed = state.narrowed
  sessionPrincipals : state'.sessionPrincipals = state.sessionPrincipals
  clean : ∀ k, k ∈ state'.clean ↔ k ∉ keys ∧ k ∈ state.clean
  instances : ∀ k ∉ keys, state'.instances.get k = state.instances.get k
  generation : ∀ k ∉ keys, generation state' k = generation state k

theorem retired_foldl (keys : List ScopeKey) :
    Retired keys state (keys.foldl retireFanOutKey state) := by
  induction keys generalizing state with
  | nil => constructor <;> simp
  | cons key keys ih =>
    have hrest := ih (retireFanOutKey state key)
    constructor
    · exact hrest.narrowed
    · exact hrest.sessionPrincipals
    · intro k
      rw [List.foldl_cons, hrest.clean, List.mem_cons, not_or]
      have hmem : k ∈ (retireFanOutKey state key).clean ↔ k ≠ key ∧ k ∈ state.clean :=
        JsSet.mem_delete
      rw [hmem]
      tauto
    · intro k hk
      obtain ⟨hne, hk⟩ := not_or.1 (List.mem_cons.not.1 hk)
      exact (hrest.instances k hk).trans (JsMap.get_delete_other _ (Ne.symm hne))
    · intro k hk
      obtain ⟨hne, hk⟩ := not_or.1 (List.mem_cons.not.1 hk)
      rw [List.foldl_cons, hrest.generation k hk, Scheduler.generation, Scheduler.generation]
      exact congrArg (Option.getD · 0) (JsMap.get_delete_other _ (Ne.symm hne))

end Frames

/-- A ratchet that has learned at least as much. -/
def Narrows (state state' : FanOutNodeState) : Prop :=
  (state.narrowed = true → state'.narrowed = true) ∧
    ∀ principal ∈ state.sessionPrincipals, principal ∈ state'.sessionPrincipals

theorem Narrows.refl (state : FanOutNodeState) : Narrows state state := ⟨id, fun _ => id⟩

theorem Narrows.trans {a b c : FanOutNodeState} (h : Narrows a b) (h' : Narrows b c) :
    Narrows a c := ⟨fun ha => h'.1 (h.1 ha), fun p hp => h'.2 p (h.2 p hp)⟩

theorem Narrows.of_eq {state state' : FanOutNodeState} (hn : state'.narrowed = state.narrowed)
    (hs : state'.sessionPrincipals = state.sessionPrincipals) : Narrows state state' := by
  constructor
  · rw [hn]
    exact id
  · rw [hs]
    exact fun _ => id

theorem Narrows.depth {state state' : FanOutNodeState} (h : Narrows state state')
    (identity : ScopeKeyIdentity) :
    scopeRank (ratchetDepthFor state identity) ≤ scopeRank (ratchetDepthFor state' identity) := by
  cases hn : state.narrowed with
  | false => simp [ratchetDepthFor, hn, scopeRank]
  | true =>
    have hn' := h.1 hn
    cases hp : identity.principal with
    | none => simp [ratchetDepthFor, hn, hn', hp]
    | some principal =>
      by_cases hs : principal ∈ state.sessionPrincipals
      · simp [ratchetDepthFor, hn, hn', hp, hs, h.2 principal hs]
      · simp only [ratchetDepthFor, hn, hn', hp]
        by_cases hs' : principal ∈ state'.sessionPrincipals <;> simp [hs, hs', scopeRank]

/-- The ratchet learns of scopes alone, and only more. -/
theorem ratchetDiscovered_learns (state : FanOutNodeState) (identity : ScopeKeyIdentity)
    (discovered : CellScope) :
    ∃ narrowed sessionPrincipals, (ratchetDiscovered state identity discovered).2 =
        { state with narrowed := narrowed, sessionPrincipals := sessionPrincipals } ∧
      (state.narrowed = true → narrowed = true) ∧
      ∀ principal ∈ state.sessionPrincipals, principal ∈ sessionPrincipals := by
  unfold ratchetDiscovered
  have htop : ∃ narrowed,
      (if (scopeRank .space < scopeRank discovered && !state.narrowed) = true then
        { state with narrowed := true } else state) = { state with narrowed := narrowed } ∧
      (state.narrowed = true → narrowed = true) := by
    split
    · exact ⟨true, rfl, fun _ => rfl⟩
    · exact ⟨state.narrowed, rfl, id⟩
  obtain ⟨narrowed, heq, hnarrowed⟩ := htop
  simp only [heq]
  cases identity.principal with
  | none => exact ⟨narrowed, _, rfl, hnarrowed, fun _ => id⟩
  | some principal =>
    simp only
    split
    · exact ⟨narrowed, _, rfl, hnarrowed, fun _ hp => JsSet.mem_add.2 (.inr hp)⟩
    · exact ⟨narrowed, _, rfl, hnarrowed, fun _ => id⟩

/-- What a finished run leaves behind. -/
structure Finished (instance_ : FanOutInstance) (key : ScopeKey) (startGen : Nat)
    (state state' : FanOutNodeState) : Prop where
  narrows : Narrows state state'
  recorded : ∃ record, state'.instances.get key = some record ∧
    record.identity = instance_.identity
  clean : ∀ k, k ∈ state'.clean →
    (k = key ∧ generation state instance_.key = startGen) ∨ (k ≠ key ∧ k ∈ state.clean ∧
      state'.instances.get k = state.instances.get k)
  generation : ∀ k, (k = instance_.key → key = instance_.key) →
    generation state' k = generation state k

/-- A run that the ratchet has re-keyed takes the instance it was stamped with off the set. -/
theorem rekeyed_frame (state : FanOutNodeState) (stamped key : ScopeKey) {k : ScopeKey}
    (hk : k = stamped → key = stamped) :
    let rekeyed := if key ≠ stamped then retireFanOutKey state stamped else state
    rekeyed.instances.get k = state.instances.get k ∧
      generation rekeyed k = generation state k := by
  by_cases hkey : key = stamped
  · simp [hkey]
  · have hne : stamped ≠ k := fun heq => hkey (hk heq.symm)
    simp only [hkey, ne_eq, not_false_eq_true, if_true]
    constructor
    · exact JsMap.get_delete_other _ hne
    · exact congrArg (Option.getD · 0) (JsMap.get_delete_other _ hne)

theorem mem_clean_rekeyed (state : FanOutNodeState) (stamped key : ScopeKey) {k : ScopeKey}
    (h : k ∈ (if key ≠ stamped then retireFanOutKey state stamped else state).clean) :
    k ∈ state.clean ∧ (k = stamped → key = stamped) := by
  by_cases hkey : key = stamped
  · rw [if_neg (not_not_intro hkey)] at h
    exact ⟨h, fun _ => hkey⟩
  · rw [if_pos hkey] at h
    obtain ⟨hne, hmem⟩ := JsSet.mem_delete.1 h
    exact ⟨hmem, fun heq => absurd heq hne⟩

theorem fanOutRunFinished_spec (state : FanOutNodeState) (instance_ : FanOutInstance)
    (discovered : CellScope) (startGen : Nat) (log : Option ReactivityLog) :
    Finished instance_ (finishedKey state instance_ discovered) startGen state
      (fanOutRunFinished state instance_ discovered startGen log).2 := by
  obtain ⟨narrowed, sessions, hlearned, hnarrowed, hsessions⟩ :=
    ratchetDiscovered_learns state instance_.identity discovered
  unfold fanOutRunFinished
  simp only [hlearned]
  generalize finishedKey state instance_ discovered = key
  generalize hlearned' : { state with narrowed := narrowed, sessionPrincipals := sessions } =
    learned
  have hclean : learned.clean = state.clean := by rw [← hlearned']
  have hinstances : learned.instances = state.instances := by rw [← hlearned']
  have hgen : ∀ k, generation learned k = generation state k := fun k => by rw [← hlearned']; rfl
  have hlearns : Narrows state learned := by
    rw [← hlearned']
    exact ⟨hnarrowed, hsessions⟩
  have hnarrows : Narrows learned
      (if key ≠ instance_.key then retireFanOutKey learned instance_.key else learned) := by
    split <;> exact .refl learned
  have hframe := fun k => rekeyed_frame learned instance_.key key (k := k)
  have hmem := fun k => mem_clean_rekeyed learned instance_.key key (k := k)
  generalize (if key ≠ instance_.key then retireFanOutKey learned instance_.key else learned) =
    rekeyed at hnarrows hframe hmem
  constructor
  · exact hlearns.trans hnarrows
  · exact ⟨_, JsMap.get_set_self _ _ _, rfl⟩
  · intro k hk
    have hkept : k ≠ key → k ∈ rekeyed.clean → k ∈ state.clean ∧
        ∀ record, (rekeyed.instances.set key record).get k = state.instances.get k := by
      intro hne hin
      obtain ⟨hin, hstamped⟩ := hmem k hin
      constructor
      · exact hclean ▸ hin
      · intro record
        rw [JsMap.get_set_other _ (Ne.symm hne), (hframe k hstamped).1, hinstances]
    rw [hgen] at hk
    by_cases hsame : generation state instance_.key = startGen
    · simp only [hsame, ne_eq, not_true_eq_false, if_false] at hk
      by_cases heq : k = key
      · exact .inl ⟨heq, hsame⟩
      · obtain ⟨hin, hget⟩ := hkept heq ((JsSet.mem_add.1 hk).resolve_left heq)
        exact .inr ⟨heq, hin, hget _⟩
    · simp only [hsame, ne_eq, not_false_eq_true, if_true] at hk
      obtain ⟨hne, hk⟩ := JsSet.mem_delete.1 hk
      obtain ⟨hin, hget⟩ := hkept hne hk
      exact .inr ⟨hne, hin, hget _⟩
  · intro k hk
    exact (hframe k hk).2.trans (hgen k)

/-- A run in flight: its instance, the generation it started from, and how many causes had
arrived by then. -/
structure InstanceRun where
  instance_ : FanOutInstance
  startGen : Nat
  started : Nat
  deriving DecidableEq

/-- A fanned-out node with its runs in flight. `arrived` lists the keys that the causes named,
and `cleanedBy` the run that made a key clean last. -/
structure FanOutSystem where
  node : FanOutNodeState
  inFlight : List InstanceRun
  arrived : List (Option ScopeKey)
  cleanedBy : ScopeKey → Option InstanceRun

def newFanOutSystem : FanOutSystem := ⟨newFanOutNodeState, [], [], fun _ => none⟩

inductive FanOutAct where
  | started (instance_ : FanOutInstance)
  | finished (run : InstanceRun) (discovered : CellScope) (log : Option ReactivityLog)
  | abandoned (run : InstanceRun)
  | invalidated (cause : Option IMemorySpaceAddress)
  | retried (key : ScopeKey)
  | pruned (current : List FanOutInstance)

/-- An invalidation without a cause dirties every instance. -/
def invalidateFanOut (state : FanOutNodeState) (cause : Option IMemorySpaceAddress) :
    FanOutNodeState :=
  match cause with
  | some cause => dirtyFanOutForCause state cause
  | none => dirtyFanOutAll state

namespace FanOutSystem

def step (s : FanOutSystem) : FanOutAct → FanOutSystem
  | .started instance_ =>
    let run := fanOutRunStarted s.node instance_
    { s with
      node := run.2
      inFlight := ⟨instance_, run.1, s.arrived.length⟩ :: s.inFlight }
  | .finished run discovered log =>
    if run ∈ s.inFlight then
      let node := (fanOutRunFinished s.node run.instance_ discovered run.startGen log).2
      { s with
        node := node
        inFlight := s.inFlight.erase run
        cleanedBy := fun k =>
          if k = finishedKey s.node run.instance_ discovered ∧ k ∈ node.clean then some run
          else s.cleanedBy k }
    else s
  | .abandoned run => { s with inFlight := s.inFlight.erase run }
  | .invalidated cause =>
    { s with
      node := invalidateFanOut s.node cause
      arrived := s.arrived ++ [cause.bind (·.scopeKey)] }
  | .retried key => { s with node := dirtyFanOutKey s.node key }
  | .pruned current => { s with node := pruneFanOutInstances s.node current }

def run (s : FanOutSystem) (acts : List FanOutAct) : FanOutSystem := acts.foldl step s

end FanOutSystem

/-- A cause covers an instance if it names no key, or one on the chain of its identity. -/
def covers (causeKey : Option ScopeKey) (identity : ScopeKeyIdentity) : Bool :=
  match causeKey with
  | none => true
  | some key => key ∈ keysOnChain identity

namespace FanOutSystem

/-- A clean key holds back no cause: none that covers its instance has arrived since the start
of the run that made it clean. -/
def Current (s : FanOutSystem) : Prop :=
  ∀ k ∈ s.node.clean, ∃ run, s.cleanedBy k = some run ∧
    ∀ causeKey ∈ s.arrived.drop run.started, covers causeKey run.instance_.identity = false

/-- A cause that covers a run in flight has arrived since its start. -/
def Reached (s : FanOutSystem) (run : InstanceRun) : Prop :=
  ∃ causeKey ∈ s.arrived.drop run.started, covers causeKey run.instance_.identity = true

/-- The condition under which no cause is lost. A cause dirties the stamped key of each run in
flight that it covers, and does not name the chain of a clean probe. Once a run in flight has
been reached, its stamped key is neither pruned nor re-keyed by another run. -/
def Heeds (s : FanOutSystem) : FanOutAct → Prop
  | .invalidated cause =>
    (∀ run ∈ s.inFlight, covers (cause.bind (·.scopeKey)) run.instance_.identity = true →
      run.instance_.key ∈ dirtiedKeys s.node (cause.bind (·.scopeKey)) ∧
        run.startGen ≤ generation s.node run.instance_.key) ∧
    ∀ record causeKey, cause.bind (·.scopeKey) = some causeKey → causeKey ≠ DEFAULT_SCOPE_KEY →
      DEFAULT_SCOPE_KEY ∈ s.node.clean → s.node.instances.get DEFAULT_SCOPE_KEY = some record →
        causeKey ∉ keysOnChain record.identity
  | .finished run discovered _ =>
    ∀ other ∈ s.inFlight.erase run, s.Reached other →
      other.instance_.key = run.instance_.key →
        finishedKey s.node run.instance_ discovered = run.instance_.key
  | .pruned current =>
    ∀ run ∈ s.inFlight, s.Reached run → s.node.instances.has run.instance_.key = true →
      run.instance_.key ∈ current.map (·.key)
  | _ => True

/-- Each step of the run is one the system heeds at that point. -/
def Heedful (s : FanOutSystem) : List FanOutAct → Prop
  | [] => True
  | act :: acts => s.Heeds act ∧ (s.step act).Heedful acts

/-- The invariant: a clean key was cleaned by a run that nothing has reached since its start,
and holds its identity; and the generation of a run in flight that was reached has moved. -/
structure Settled (s : FanOutSystem) : Prop where
  cleaned : ∀ k ∈ s.node.clean, ∃ run record, s.cleanedBy k = some run ∧
    s.node.instances.get k = some record ∧ record.identity = run.instance_.identity ∧
    run.started ≤ s.arrived.length ∧ ¬ s.Reached run
  counted : ∀ run ∈ s.inFlight, run.started ≤ s.arrived.length
  moved : ∀ run ∈ s.inFlight, s.Reached run →
    run.startGen < generation s.node run.instance_.key

theorem settled_new : newFanOutSystem.Settled := by
  constructor
  · intro k hk
    cases hk
  · intro run hrun
    cases hrun
  · intro run hrun
    cases hrun

variable {s : FanOutSystem}

theorem Settled.current (h : s.Settled) : s.Current := by
  intro k hk
  obtain ⟨run, _, hrun, _, _, _, hreached⟩ := h.cleaned k hk
  refine ⟨run, hrun, fun causeKey hin => ?_⟩
  rw [← Bool.not_eq_true]
  exact fun hcovers => hreached ⟨causeKey, hin, hcovers⟩

theorem Settled.started (h : s.Settled) (instance_ : FanOutInstance) :
    (s.step (.started instance_)).Settled := by
  have hgen : ∀ k, generation (fanOutRunStarted s.node instance_).2 k = generation s.node k := by
    intro k
    unfold fanOutRunStarted
    split <;> rfl
  constructor
  · intro k hk
    have hclean : (fanOutRunStarted s.node instance_).2.clean = s.node.clean := by
      unfold fanOutRunStarted
      split <;> rfl
    obtain ⟨run, record, hrun, hget, hrest⟩ := h.cleaned k (hclean ▸ hk)
    refine ⟨run, record, hrun, ?_, hrest⟩
    simp only [step, fanOutRunStarted]
    split
    case isTrue => exact hget
    case isFalse hhas =>
      have hne : instance_.key ≠ k := by
        intro heq
        apply hhas
        rw [heq, JsMap.has, hget]
        rfl
      exact (JsMap.get_set_other _ hne _).trans hget
  · intro run hrun
    cases List.mem_cons.1 hrun with
    | inl heq => exact heq ▸ Nat.le_refl _
    | inr hold => exact h.counted run hold
  · intro run hrun hreached
    cases List.mem_cons.1 hrun with
    | inl heq =>
      obtain ⟨causeKey, hin, -⟩ := hreached
      simp [heq, step] at hin
    | inr hold =>
      have hmoved := h.moved run hold hreached
      simp only [step, hgen]
      exact hmoved

theorem Settled.finished (h : s.Settled) {run : InstanceRun}
    {discovered : CellScope} {log : Option ReactivityLog}
    (hh : s.Heeds (.finished run discovered log)) :
    (s.step (.finished run discovered log)).Settled := by
  by_cases hin : run ∈ s.inFlight
  case neg =>
    have heq : s.step (.finished run discovered log) = s := if_neg hin
    rwa [heq]
  case pos =>
    have heq : s.step (.finished run discovered log) = _ := if_pos hin
    rw [heq]
    have hspec := fanOutRunFinished_spec s.node run.instance_ discovered run.startGen log
    constructor
    · intro k hk
      obtain ⟨hkey, hgen⟩ | ⟨hne, hclean, hget⟩ := hspec.clean k hk
      · obtain ⟨record, hrecord, hidentity⟩ := hspec.recorded
        refine ⟨run, record, if_pos ⟨hkey, hk⟩, hkey ▸ hrecord, hidentity, h.counted run hin, ?_⟩
        intro hreached
        have hmoved := h.moved run hin hreached
        omega
      · obtain ⟨cleaner, record, hcleaner, hold, hrest⟩ := h.cleaned k hclean
        have hother : ¬ (k = finishedKey s.node run.instance_ discovered ∧
            k ∈ (fanOutRunFinished s.node run.instance_ discovered run.startGen log).2.clean) :=
          fun hand => hne hand.1
        exact ⟨cleaner, record, (if_neg hother).trans hcleaner, hget.trans hold, hrest⟩
    · intro other hother
      exact h.counted other (List.mem_of_mem_erase hother)
    · intro other hother hreached
      have hmoved := h.moved other (List.mem_of_mem_erase hother) hreached
      have hgen := hspec.generation other.instance_.key (hh other hother hreached)
      exact hgen ▸ hmoved

theorem Settled.abandoned (h : s.Settled) (run : InstanceRun) :
    (s.step (.abandoned run)).Settled := by
  constructor
  · exact h.cleaned
  · intro other hother
    exact h.counted other (List.mem_of_mem_erase hother)
  · intro other hother hreached
    exact h.moved other (List.mem_of_mem_erase hother) hreached

theorem invalidateFanOut_dirtied (state : FanOutNodeState) (cause : Option IMemorySpaceAddress) :
    Dirtied (dirtiedKeys state (cause.bind (·.scopeKey))) state (invalidateFanOut state cause) := by
  cases cause with
  | none => exact dirtied_foldl state _
  | some cause =>
    have heq : invalidateFanOut state (some cause) =
        (dirtiedKeys state cause.scopeKey).foldl dirtyFanOutKey state :=
      dirtyFanOutForCause_eq state cause
    rw [heq]
    exact dirtied_foldl state _

/-- A cause that covers a clean instance dirties it, the probe apart. -/
theorem mem_dirtiedKeys {state : FanOutNodeState} {causeKey : Option ScopeKey} {k : ScopeKey}
    {record : InstanceRecord} (hclean : k ∈ state.clean)
    (hget : state.instances.get k = some record) (hcovers : covers causeKey record.identity = true)
    (hprobe : ∀ key, causeKey = some key → key ≠ DEFAULT_SCOPE_KEY → k ≠ DEFAULT_SCOPE_KEY) :
    k ∈ dirtiedKeys state causeKey := by
  unfold dirtiedKeys
  cases causeKey with
  | none => exact List.mem_append_left _ hclean
  | some key =>
    by_cases hspace : key = DEFAULT_SCOPE_KEY
    · simp only [hspace, if_true]
      exact List.mem_append_left _ hclean
    · simp only [hspace, if_false]
      apply List.mem_map.2
      exists (k, record)
      constructor
      · apply List.mem_filter.2
        have hchain : key ∈ keysOnChain record.identity := by simpa [covers] using hcovers
        exact ⟨JsMap.mem_of_get hget, by simp [hprobe key rfl hspace, hchain]⟩
      · rfl

theorem reached_snoc {run : InstanceRun} {causeKey : Option ScopeKey}
    {node : FanOutNodeState} (hle : run.started ≤ s.arrived.length)
    (h : Reached { s with node := node, arrived := s.arrived ++ [causeKey] } run) :
    s.Reached run ∨ covers causeKey run.instance_.identity = true := by
  obtain ⟨other, hin, hcovers⟩ := h
  simp only [List.drop_append_of_le_length hle, List.mem_append, List.mem_singleton] at hin
  cases hin with
  | inl hold => exact .inl ⟨other, hold, hcovers⟩
  | inr hnew => exact .inr (hnew ▸ hcovers)

theorem Settled.invalidated (h : s.Settled)
    {cause : Option IMemorySpaceAddress} (hh : s.Heeds (.invalidated cause)) :
    (s.step (.invalidated cause)).Settled := by
  obtain ⟨hflight, hprobe⟩ := hh
  have hdirtied := invalidateFanOut_dirtied s.node cause
  constructor
  · intro k hk
    obtain ⟨hkept, hclean⟩ := (hdirtied.clean k).1 hk
    obtain ⟨run, record, hrun, hget, hidentity, hle, hreached⟩ := h.cleaned k hclean
    refine ⟨run, record, hrun, hdirtied.instances ▸ hget, hidentity, ?_, ?_⟩
    · simp only [step, List.length_append]
      omega
    · intro hnow
      obtain hbefore | hcovers := reached_snoc hle hnow
      · exact hreached hbefore
      · rw [← hidentity] at hcovers
        apply hkept
        apply mem_dirtiedKeys hclean hget hcovers
        intro key hkey hspace heq
        subst heq
        apply hprobe record key hkey hspace hclean hget
        simpa [covers, hkey] using hcovers
  · intro run hrun
    have hle := h.counted run hrun
    simp only [step, List.length_append]
    omega
  · intro run hrun hnow
    obtain hbefore | hcovers := reached_snoc (h.counted run hrun) hnow
    · exact Nat.lt_of_lt_of_le (h.moved run hrun hbefore) (hdirtied.mono _)
    · obtain ⟨hmem, hle⟩ := hflight run hrun hcovers
      exact Nat.lt_of_le_of_lt hle (hdirtied.moved _ hmem)

theorem Settled.retried (h : s.Settled) (key : ScopeKey) :
    (s.step (.retried key)).Settled := by
  have hdirtied : Dirtied [key] s.node (dirtyFanOutKey s.node key) := dirtied_foldl s.node [key]
  constructor
  · intro k hk
    obtain ⟨run, record, hrun, hget, hrest⟩ := h.cleaned k ((hdirtied.clean k).1 hk).2
    exact ⟨run, record, hrun, hdirtied.instances ▸ hget, hrest⟩
  · exact h.counted
  · intro run hrun hreached
    exact Nat.lt_of_lt_of_le (h.moved run hrun hreached) (hdirtied.mono _)

theorem Settled.pruned (h : s.Settled) {current : List FanOutInstance}
    (hh : s.Heeds (.pruned current)) : (s.step (.pruned current)).Settled := by
  have hretired := retired_foldl s.node
    (s.node.instances.keys.filter fun key => key ∉ current.map (·.key))
  constructor
  · intro k hk
    obtain ⟨hkept, hclean⟩ := (hretired.clean k).1 hk
    obtain ⟨run, record, hrun, hget, hrest⟩ := h.cleaned k hclean
    exact ⟨run, record, hrun, (hretired.instances k hkept).trans hget, hrest⟩
  · exact h.counted
  · intro run hrun hreached
    have hmoved := h.moved run hrun hreached
    have hkept : run.instance_.key ∉
        s.node.instances.keys.filter fun key => key ∉ current.map (·.key) := by
      intro hmem
      obtain ⟨hkeys, hgone⟩ := List.mem_filter.1 hmem
      have hhas : s.node.instances.has run.instance_.key = true := by
        obtain ⟨entry, hentry, heq⟩ := List.mem_map.1 hkeys
        rw [JsMap.has_iff]
        exact ⟨entry.2, heq ▸ hentry⟩
      exact of_decide_eq_true hgone (hh run hrun hreached hhas)
    have hgen := hretired.generation _ hkept
    exact hgen ▸ hmoved

theorem Settled.step (h : s.Settled) {act : FanOutAct} (hh : s.Heeds act) :
    (s.step act).Settled := by
  cases act with
  | started instance_ => exact h.started instance_
  | finished run discovered log => exact h.finished hh
  | abandoned run => exact h.abandoned run
  | invalidated cause => exact h.invalidated hh
  | retried key => exact h.retried key
  | pruned current => exact h.pruned hh

theorem Settled.run (h : s.Settled) {acts : List FanOutAct}
    (hacts : s.Heedful acts) : (s.run acts).Settled := by
  induction acts generalizing s with
  | nil => exact h
  | cons act acts ih => exact ih (h.step hacts.1) hacts.2

theorem step_narrows (s : FanOutSystem) (act : FanOutAct) : Narrows s.node (s.step act).node := by
  cases act with
  | started instance_ =>
    simp only [step, fanOutRunStarted]
    split <;> exact .refl s.node
  | finished run discovered log =>
    by_cases hin : run ∈ s.inFlight
    · simp only [step, hin, if_true]
      exact (fanOutRunFinished_spec s.node run.instance_ discovered run.startGen log).narrows
    · simp only [step, hin, if_false]
      exact .refl s.node
  | abandoned run => exact .refl s.node
  | invalidated cause =>
    have hdirtied := invalidateFanOut_dirtied s.node cause
    exact .of_eq hdirtied.narrowed hdirtied.sessionPrincipals
  | retried key => exact .refl s.node
  | pruned current =>
    have hretired := retired_foldl s.node
      (s.node.instances.keys.filter fun key => key ∉ current.map (·.key))
    exact .of_eq hretired.narrowed hretired.sessionPrincipals

theorem run_narrows (s : FanOutSystem) (acts : List FanOutAct) :
    Narrows s.node (s.run acts).node := by
  induction acts generalizing s with
  | nil => exact .refl s.node
  | cons act acts ih => exact (s.step_narrows act).trans (ih (s.step act))

/-- In every heedful run the clean instances hold back no cause. The ratchet is no wider than
it was at any point before, in any run. -/
theorem loses_no_cause (acts : List FanOutAct) :
    (newFanOutSystem.Heedful acts → (newFanOutSystem.run acts).Current) ∧
      ∀ before after identity, acts = before ++ after →
        scopeRank (ratchetDepthFor (newFanOutSystem.run before).node identity) ≤
          scopeRank (ratchetDepthFor (newFanOutSystem.run acts).node identity) := by
  constructor
  · intro hacts
    exact (settled_new.run hacts).current
  · intro before after identity hsplit
    subst hsplit
    have heq : newFanOutSystem.run (before ++ after) = (newFanOutSystem.run before).run after :=
      List.foldl_append
    rw [heq]
    exact (run_narrows _ after).depth identity

/-- A user's instance runs, and a cause on its chain arrives before it ends. -/
theorem loses_no_cause_reached :
    let instance_ : FanOutInstance := ⟨⟨some "alice", some "s1"⟩, "user:alice"⟩
    (newFanOutSystem.run [.started instance_,
      .invalidated (some ⟨"space", "of:x", some .user, some "user:alice", []⟩),
      .finished ⟨instance_, 0, 0⟩ .user none]).Current := by
  intro instance_
  apply (loses_no_cause _).1
  constructor
  · trivial
  constructor
  · constructor
    · intro run hrun _
      rw [List.mem_singleton.1 hrun]
      decide +kernel
    · intro record causeKey _ _ hclean
      cases hclean
  constructor
  · intro other hother
    cases hother
  · trivial

/-- The probe skips a keyed cause that arrives while it runs, and is then clean as the very
instance that the cause names. -/
theorem probe_absorbs_cause :
    let probe : FanOutInstance := ⟨⟨some "alice", some "s1"⟩, "space"⟩
    ¬ (newFanOutSystem.run [.started probe,
      .invalidated (some ⟨"space", "of:x", some .user, some "user:alice", []⟩),
      .finished ⟨probe, 0, 0⟩ .user none]).Current := by
  intro probe hcurrent
  obtain ⟨run, hrun, hnone⟩ := hcurrent "user:alice" (by decide +kernel)
  have heq : run = ⟨probe, 0, 0⟩ := by
    apply Option.some.inj
    rw [← hrun]
    decide +kernel
  subst heq
  have hcovers := hnone (some "user:alice") (by decide +kernel)
  revert hcovers
  decide +kernel

end FanOutSystem

end Scheduler
