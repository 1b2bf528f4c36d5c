import CommonFabric.JsMap
import CommonFabric.JsSet
import CommonFabric.JsValue
import Mathlib.Logic.Function.Basic

/-!
# Principals that wait to be admitted

Who was refused a space, by the connection it was refused on, so that a later grant can be told. Two
nested indexes hold the entries, one by space and one by connection, and a principal's entries go on
under a key of its own once the connection closes.
-/

namespace JsMap

variable {κ ν : Type} [DecidableEq κ]

/-- What a key holds, or what none holds. -/
def read (m : JsMap κ ν) (k : κ) (d : ν) : ν := (m.get k).getD d

/-- A value set unless there is nothing in it, in which case its key goes. -/
def keep (m : JsMap κ ν) (k : κ) (v : ν) (isEmpty : Bool) : JsMap κ ν :=
  if isEmpty then m.delete k else m.set k v

/-- No key holds an empty value. -/
def Tight (m : JsMap κ ν) (d : ν) : Prop := ∀ k, m.get k ≠ some d

variable {m : JsMap κ ν} {d v : ν}

@[simp] theorem read_empty (k : κ) : (empty : JsMap κ ν).read k d = d := rfl

theorem tight_empty : (empty : JsMap κ ν).Tight d := by
  intro k h
  cases h

theorem read_set (k k' : κ) : (m.set k v).read k' d = if k = k' then v else m.read k' d := by
  rw [read, get_set]
  split <;> rfl

theorem tight_set (h : m.Tight d) (k : κ) (hv : v ≠ d) : (m.set k v).Tight d := by
  intro k'
  rw [get_set]
  split
  · exact fun heq => hv (Option.some.inj heq)
  · exact h k'

theorem read_keep (k k' : κ) {isEmpty : Bool} (hv : isEmpty = true ↔ v = d) :
    (m.keep k v isEmpty).read k' d = if k = k' then v else m.read k' d := by
  rw [keep]
  split
  case isTrue h =>
    rw [read, get_delete]
    split
    · exact (hv.1 h).symm
    · rfl
  case isFalse h => exact read_set k k'

theorem tight_keep (h : m.Tight d) (k : κ) {isEmpty : Bool} (hv : isEmpty = true ↔ v = d) :
    (m.keep k v isEmpty).Tight d := by
  rw [keep]
  split
  case isTrue hempty =>
    intro k'
    rw [get_delete]
    split
    · exact fun heq => by cases heq
    · exact h k'
  case isFalse hempty => exact tight_set h k fun heq => hempty (hv.2 heq)

theorem get_of_read (k : κ) (h : m.read k d ≠ d) : m.get k = some (m.read k d) := by
  rw [read] at h ⊢
  cases hget : m.get k with
  | none =>
    rw [hget] at h
    exact absurd rfl h
  | some v => rfl

omit [DecidableEq κ] in
theorem isEmpty_iff : m.entries.isEmpty = true ↔ m = empty := by
  obtain ⟨entries, hnodup⟩ := m
  cases entries with
  | nil => exact iff_of_true rfl rfl
  | cons e rest => exact iff_of_false (fun h => by cases h) (fun h => by cases congrArg entries h)

/-- A key that is not there is set at the end. -/
theorem entries_set (k : κ) (h : m.get k = none) : (m.set k v).entries = m.entries ++ [(k, v)] := by
  have hnone : ∀ e ∈ m.entries, e.1 ≠ k := by
    rintro e he rfl
    rw [get_of_mem he] at h
    cases h
  show setEntries k v m.entries = m.entries ++ [(k, v)]
  generalize m.entries = entries at hnone
  induction entries with
  | nil => rfl
  | cons x rest ih =>
    rw [setEntries, if_neg (hnone x List.mem_cons_self),
      ih fun e he => hnone e (List.mem_cons_of_mem _ he)]
    rfl

end JsMap

theorem JsSet.isEmpty_iff {α : Type} {s : JsSet α} : s.items.isEmpty = true ↔ s = JsSet.empty := by
  obtain ⟨items, hnodup⟩ := s
  cases items with
  | nil => exact iff_of_true rfl rfl
  | cons a rest =>
    exact iff_of_false (fun h => by cases h) (fun h => by cases congrArg JsSet.items h)

structure AdmissionWaiters where
  /-- Per space, per connection id, the principals refused it there. -/
  bySpace : JsMap JsString (JsMap JsString (JsSet JsString))
  /-- Per connection id, its entries as space and principal, oldest first. -/
  byConnection : JsMap JsString (JsMap JsString (JsString × JsString))
  limit : Nat

/-- A space and a principal that was refused it. -/
abbrev AdmissionEntry := JsString × JsString

namespace AdmissionWaiters

/-- `"\0held\0"`. -/
def heldPrefix : JsString := ⟨[0, 0x68, 0x65, 0x6c, 0x64, 0]⟩

def heldKey (principal : JsString) : JsString := heldPrefix.append principal

def entryKey (space principal : JsString) : JsString := ⟨space.units ++ 0 :: principal.units⟩

/-- Nothing where it throws, which is on a limit that is not positive. -/
def construct (limit : Nat) : Option AdmissionWaiters :=
  if limit < 1 then none else some ⟨.empty, .empty, limit⟩

variable (w : AdmissionWaiters)

def entriesOf (connectionId : JsString) : List AdmissionEntry :=
  ((w.byConnection.get connectionId).map JsMap.values).getD []

/-- Nothing where the index by space lacks what the other lists, on which it throws. -/
def remove (connectionId space principal : JsString) : Option AdmissionWaiters :=
  match w.byConnection.get connectionId with
  | none => some w
  | some entries =>
    if entries.has (entryKey space principal) = false then some w
    else
      let entries := entries.delete (entryKey space principal)
      (w.bySpace.get space).bind fun byConnection =>
        (byConnection.get connectionId).map fun principals =>
          let principals := principals.delete principal
          let byConnection := byConnection.keep connectionId principals principals.items.isEmpty
          { w with
            byConnection := w.byConnection.keep connectionId entries entries.entries.isEmpty
            bySpace := w.bySpace.keep space byConnection byConnection.entries.isEmpty }

/-- The oldest entry goes where the connection holds as many as it may. -/
def dropOldest (connectionId : JsString) : Option AdmissionWaiters :=
  match w.byConnection.get connectionId with
  | none => some w
  | some held =>
    if w.limit ≤ held.entries.length then
      held.values.head?.bind fun oldest => w.remove connectionId oldest.1 oldest.2
    else some w

def add (connectionId space principal : JsString) : Option AdmissionWaiters :=
  let key := entryKey space principal
  if (w.byConnection.get connectionId).any (·.has key) then some w
  else
    (w.dropOldest connectionId).map fun w =>
      -- the map is looked up again, as it may be gone
      let entries := w.byConnection.read connectionId .empty
      let byConnection := w.bySpace.read space .empty
      let principals := byConnection.read connectionId .empty
      { w with
        byConnection := w.byConnection.set connectionId (entries.set key (space, principal))
        bySpace := w.bySpace.set space (byConnection.set connectionId (principals.add principal)) }

def hold (connectionId : JsString) : Option AdmissionWaiters :=
  (w.entriesOf connectionId).foldlM (fun (w : AdmissionWaiters) e =>
    (w.remove connectionId e.1 e.2).bind fun w => w.add (heldKey e.2) e.1 e.2) w

def removeHeld (space principal : JsString) : Option (Bool × AdmissionWaiters) :=
  let held := (w.byConnection.get (heldKey principal)).any (·.has (entryKey space principal))
  (w.remove (heldKey principal) space principal).map fun w => (held, w)

def removePrincipal (connectionId principal : JsString) : Option AdmissionWaiters :=
  (w.entriesOf connectionId).foldlM (fun (w : AdmissionWaiters) e =>
    if e.2 = principal then w.remove connectionId e.1 e.2 else some w) w

def removeConnection (connectionId : JsString) : Option AdmissionWaiters :=
  (w.entriesOf connectionId).foldlM (fun (w : AdmissionWaiters) e => w.remove connectionId e.1 e.2) w

def releaseHeld (principal : JsString) : Option AdmissionWaiters :=
  w.removeConnection (heldKey principal)

/-- The connections and principals that `take` collects before it removes any. -/
def admitted (space : JsString) (admits : JsString → Bool) : List (JsString × JsString) :=
  (w.bySpace.read space .empty).entries.flatMap fun e =>
    (e.2.items.filter admits).map fun principal => (e.1, principal)

def take (space : JsString) (admits : JsString → Bool) :
    Option (List (Option JsString × JsString) × AdmissionWaiters) :=
  let taken := w.admitted space admits
  (taken.foldlM (fun (w : AdmissionWaiters) e => w.remove e.1 space e.2) w).map fun w =>
    (taken.map fun e => (if e.1.startsWith heldPrefix then none else some e.1, e.2), w)

inductive Holder where
  | connection (id : JsString)
  | held (principal : JsString)
  deriving DecidableEq

/-- No NUL in it. -/
def NulFree (s : JsString) : Prop := 0 ∉ s.units

def Holder.key : Holder → JsString
  | .connection id => id
  | .held principal => heldKey principal

def Holder.NulFree : Holder → Prop
  | .connection id => AdmissionWaiters.NulFree id
  | .held _ => True

/-- The lists a holder may have an entry in: those held are the principal's own. -/
def Holder.Owns : Holder → AdmissionEntry → Prop
  | .connection _, _ => True
  | .held principal, e => e.2 = principal

/-- A list gains an entry at its end, and loses its oldest where it has as many as it may. -/
def addTo (limit : Nat) (entries : List AdmissionEntry) (e : AdmissionEntry) : List AdmissionEntry :=
  if e ∈ entries then entries
  else if limit ≤ entries.length then entries.tail ++ [e]
  else entries ++ [e]

inductive Op where
  | add (connectionId space principal : JsString)
  | hold (connectionId : JsString)
  | remove (connectionId space principal : JsString)
  | removePrincipal (connectionId principal : JsString)
  | removeConnection (connectionId : JsString)
  | removeHeld (space principal : JsString)
  | releaseHeld (principal : JsString)
  | take (space : JsString) (admits : JsString → Bool)

inductive Output where
  | done
  | found (held : Bool)
  | taken (entries : List (Option JsString × JsString))

def step (w : AdmissionWaiters) : Op → Option (Output × AdmissionWaiters)
  | .add connectionId space principal => (w.add connectionId space principal).map (.done, ·)
  | .hold connectionId => (w.hold connectionId).map (.done, ·)
  | .remove connectionId space principal => (w.remove connectionId space principal).map (.done, ·)
  | .removePrincipal connectionId principal =>
    (w.removePrincipal connectionId principal).map (.done, ·)
  | .removeConnection connectionId => (w.removeConnection connectionId).map (.done, ·)
  | .removeHeld space principal =>
    (w.removeHeld space principal).map fun result => (.found result.1, result.2)
  | .releaseHeld principal => (w.releaseHeld principal).map (.done, ·)
  | .take space admits => (w.take space admits).map fun result => (.taken result.1, result.2)

def run (w : AdmissionWaiters) (ops : List Op) : Option AdmissionWaiters :=
  ops.foldlM (fun w op => (w.step op).map (·.2)) w

/-- The connection ids and spaces of an operation have no NUL. -/
def Op.NulFree : Op → Prop
  | .add connectionId space _ => AdmissionWaiters.NulFree connectionId ∧ AdmissionWaiters.NulFree space
  | .hold connectionId => AdmissionWaiters.NulFree connectionId
  | .remove connectionId space _ =>
    AdmissionWaiters.NulFree connectionId ∧ AdmissionWaiters.NulFree space
  | .removePrincipal connectionId _ => AdmissionWaiters.NulFree connectionId
  | .removeConnection connectionId => AdmissionWaiters.NulFree connectionId
  | .removeHeld space _ => AdmissionWaiters.NulFree space
  | .releaseHeld _ => True
  | .take space _ => AdmissionWaiters.NulFree space

abbrev Lists := Holder → List AdmissionEntry

/-- What an operation does to the lists: it names the entries that go, and all others stay. -/
def Lists.step (limit : Nat) (lists : Lists) : Op → Lists
  | .add connectionId space principal =>
    Function.update lists (.connection connectionId)
      (addTo limit (lists (.connection connectionId)) (space, principal))
  | .hold connectionId => fun
    | .connection id => if id = connectionId then [] else lists (.connection id)
    | .held principal =>
      ((lists (.connection connectionId)).filter (·.2 = principal)).foldl (addTo limit)
        (lists (.held principal))
  | .remove connectionId space principal =>
    Function.update lists (.connection connectionId)
      ((lists (.connection connectionId)).filter (· ≠ (space, principal)))
  | .removePrincipal connectionId principal =>
    Function.update lists (.connection connectionId)
      ((lists (.connection connectionId)).filter (·.2 ≠ principal))
  | .removeConnection connectionId => Function.update lists (.connection connectionId) []
  | .removeHeld space principal =>
    Function.update lists (.held principal)
      ((lists (.held principal)).filter (· ≠ (space, principal)))
  | .releaseHeld principal => Function.update lists (.held principal) []
  | .take space admits => fun h => (lists h).filter fun e => !(e.1 = space && admits e.2)

/-- What an operation returns, of the lists before it. -/
def Lists.Returns (lists : Lists) : Op → Output → Prop
  | .removeHeld space principal, output =>
    output = .found (decide ((space, principal) ∈ lists (.held principal)))
  | .take space admits, output => ∃ entries, output = .taken entries ∧ entries.Nodup ∧
    (∀ id principal, (some id, principal) ∈ entries ↔
      (space, principal) ∈ lists (.connection id) ∧ admits principal = true) ∧
    ∀ principal, (none, principal) ∈ entries ↔
      (space, principal) ∈ lists (.held principal) ∧ admits principal = true
  | _, output => output = .done

/-- The indexes list the same entries, each under its own key and none in an empty collection, and
no list exceeds the limit. -/
structure Coherent (w : AdmissionWaiters) : Prop where
  connections : w.byConnection.Tight .empty
  spaces : w.bySpace.Tight .empty
  inSpaces : ∀ space, (w.bySpace.read space .empty).Tight .empty
  keyed : ∀ id, ∀ e ∈ (w.byConnection.read id .empty).entries,
    e.1 = entryKey e.2.1 e.2.2 ∧ NulFree e.2.1
  same : ∀ space id principal,
    principal ∈ (w.bySpace.read space .empty).read id .empty ↔ (space, principal) ∈ w.entriesOf id
  bounded : ∀ id, (w.entriesOf id).length ≤ w.limit
  owned : ∀ id, ∀ e ∈ w.entriesOf id, ∃ h : Holder, h.NulFree ∧ h.key = id ∧ h.Owns e

/-- Each holder's list is that of its key, and the lists are of ids without NUL. -/
def Represents (w : AdmissionWaiters) (lists : Lists) : Prop :=
  ∀ h, (h.NulFree → w.entriesOf h.key = lists h) ∧ (¬h.NulFree → lists h = [])

theorem entryKey_inj {space principal space' principal' : JsString} (h : NulFree space)
    (h' : NulFree space') (heq : entryKey space principal = entryKey space' principal') :
    (space, principal) = (space', principal') := by
  obtain ⟨hspace, hprincipal⟩ :=
    JsString.append_separator_inj h h' (congrArg JsString.units heq)
  obtain ⟨space⟩ := space
  obtain ⟨principal⟩ := principal
  cases hspace
  cases hprincipal
  rfl

theorem not_nulFree_heldKey (principal : JsString) : ¬NulFree (heldKey principal) := by
  intro h
  exact h List.mem_cons_self

theorem heldKey_inj {principal principal' : JsString} (h : heldKey principal = heldKey principal') :
    principal = principal' := by
  obtain ⟨units⟩ := principal
  obtain ⟨units'⟩ := principal'
  exact congrArg JsString.mk (List.append_cancel_left (congrArg JsString.units h))

theorem startsWith_heldKey (principal : JsString) :
    (heldKey principal).startsWith heldPrefix = true :=
  List.isPrefixOf_iff_prefix.2 (List.prefix_append _ _)

theorem not_startsWith {id : JsString} (h : NulFree id) : id.startsWith heldPrefix = false := by
  rw [Bool.eq_false_iff]
  intro hstarts
  obtain ⟨rest, hrest⟩ := List.isPrefixOf_iff_prefix.1 hstarts
  exact h (hrest ▸ List.mem_cons_self)

theorem Holder.key_inj {h h' : Holder} (hnul : h.NulFree) (hnul' : h'.NulFree)
    (heq : h.key = h'.key) : h = h' := by
  cases h with
  | connection id =>
    cases h' with
    | connection id' => exact congrArg Holder.connection heq
    | held principal =>
      have heq : id = heldKey principal := heq
      exact absurd hnul (heq.symm ▸ not_nulFree_heldKey principal)
  | held principal =>
    cases h' with
    | connection id =>
      have heq : heldKey principal = id := heq
      exact absurd hnul' (heq ▸ not_nulFree_heldKey principal)
    | held principal' => exact congrArg Holder.held (heldKey_inj heq)

variable {w : AdmissionWaiters}

theorem entriesOf_eq (w : AdmissionWaiters) (id : JsString) :
    w.entriesOf id = (w.byConnection.read id .empty).values := by
  rw [entriesOf, JsMap.read]
  cases w.byConnection.get id <;> rfl

/-- The entries of a connection, each under its key. -/
theorem mem_entriesOf (hw : Coherent w) (id : JsString) {space : JsString} (principal : JsString)
    (h : NulFree space) :
    (w.byConnection.read id .empty).has (entryKey space principal) = true ↔
      (space, principal) ∈ w.entriesOf id := by
  rw [entriesOf_eq, JsMap.has_iff]
  constructor
  · rintro ⟨e, he⟩
    obtain ⟨hkey, hspace⟩ := hw.keyed id _ he
    rw [entryKey_inj h hspace hkey]
    exact List.mem_map.2 ⟨_, he, rfl⟩
  · intro hmem
    obtain ⟨e, he, heq⟩ := List.mem_map.1 hmem
    have hkey := (hw.keyed id e he).1
    rw [heq] at hkey
    exact ⟨(space, principal), by rw [← hkey, ← heq]; exact he⟩

theorem any_has (hw : Coherent w) (id : JsString) {space : JsString} (principal : JsString)
    (h : NulFree space) : (w.byConnection.get id).any (·.has (entryKey space principal)) = true ↔
      (space, principal) ∈ w.entriesOf id := by
  rw [← mem_entriesOf hw id principal h, JsMap.read]
  cases w.byConnection.get id <;> rfl

theorem nodup_entriesOf (hw : Coherent w) (id : JsString) : (w.entriesOf id).Nodup := by
  have hnodup := (w.byConnection.read id .empty).nodup
  have hkeys : (w.byConnection.read id .empty).entries.map (·.1) =
      (w.entriesOf id).map fun e => entryKey e.1 e.2 := by
    rw [entriesOf_eq, JsMap.values, List.map_map]
    exact List.map_congr_left fun e he => (hw.keyed id e he).1
  rw [hkeys] at hnodup
  exact hnodup.of_map

theorem values_delete (hw : Coherent w) {id space principal : JsString} (h : NulFree space) :
    ((w.byConnection.read id .empty).delete (entryKey space principal)).values =
      (w.entriesOf id).filter (· ≠ (space, principal)) := by
  rw [entriesOf_eq, JsMap.values, JsMap.values, JsMap.delete, List.filter_map]
  congr 1
  apply List.filter_congr
  intro e he
  obtain ⟨hkey, hspace⟩ := hw.keyed id e he
  rw [Function.comp, decide_eq_decide, hkey, not_iff_not]
  constructor
  · exact fun heq => entryKey_inj hspace h heq
  · intro heq
    rw [heq]

/-- The indexes stay coherent while one list becomes another. -/
structure Becomes (w w' : AdmissionWaiters) (id : JsString) (entries : List AdmissionEntry) :
    Prop where
  coherent : Coherent w'
  limit : w'.limit = w.limit
  lists : ∀ id', w'.entriesOf id' = if id = id' then entries else w.entriesOf id'

variable {entries : List AdmissionEntry} {e : AdmissionEntry} {lists : Lists}

theorem becomes_same (hw : Coherent w) {id : JsString}
    (h : w.entriesOf id = entries) : Becomes w w id entries := by
  refine ⟨hw, rfl, ?_⟩
  intro id'
  split
  case isTrue heq => rw [← heq, h]
  case isFalse => rfl

theorem filter_ne_of_not_mem (h : e ∉ entries) : entries.filter (· ≠ e) = entries := by
  apply List.filter_eq_self.2
  intro e' he'
  simpa using fun heq : e' = e => h (heq ▸ he')

/-- What a removal leaves, in terms of what the keys are read to hold. -/
def removed (w : AdmissionWaiters) (id space principal : JsString) : AdmissionWaiters :=
  let entries := (w.byConnection.read id .empty).delete (entryKey space principal)
  let principals := ((w.bySpace.read space .empty).read id .empty).delete principal
  let byConnection := (w.bySpace.read space .empty).keep id principals principals.items.isEmpty
  { w with
    byConnection := w.byConnection.keep id entries entries.entries.isEmpty
    bySpace := w.bySpace.keep space byConnection byConnection.entries.isEmpty }

theorem remove_of_mem (hw : Coherent w) {id space principal : JsString} (h : NulFree space)
    (hin : (space, principal) ∈ w.entriesOf id) :
    w.remove id space principal = some (w.removed id space principal) := by
  have hhas := (mem_entriesOf hw id principal h).2 hin
  have hset := (hw.same space id principal).2 hin
  have hconnection : w.byConnection.get id = some (w.byConnection.read id .empty) := by
    apply JsMap.get_of_read
    intro heq
    rw [heq] at hhas
    cases hhas
  have hprincipals : (w.bySpace.read space .empty).get id =
      some ((w.bySpace.read space .empty).read id .empty) := by
    apply JsMap.get_of_read
    intro heq
    rw [heq] at hset
    exact JsSet.not_mem_empty principal hset
  have hspace : w.bySpace.get space = some (w.bySpace.read space .empty) := by
    apply JsMap.get_of_read
    intro heq
    rw [heq] at hset
    exact JsSet.not_mem_empty principal hset
  rw [remove, hconnection]
  simp only [hhas, Bool.true_eq_false, if_false, hspace, Option.bind_some, hprincipals,
    Option.map_some]
  rfl

theorem remove_of_not_mem (hw : Coherent w) {id space principal : JsString} (h : NulFree space)
    (hin : (space, principal) ∉ w.entriesOf id) : w.remove id space principal = some w := by
  have hmem := mem_entriesOf hw id principal h
  rw [remove]
  cases hget : w.byConnection.get id with
  | none => rfl
  | some entries =>
    rw [JsMap.read, hget, Option.getD_some] at hmem
    have hhas : entries.has (entryKey space principal) = false :=
      Bool.eq_false_iff.2 fun h => hin (hmem.1 h)
    simp only [hhas, if_true]

/-- In the index by connection the list loses the entry. -/
theorem read_removed (w : AdmissionWaiters) (id space principal id' : JsString) :
    (w.removed id space principal).byConnection.read id' .empty =
      if id = id' then (w.byConnection.read id .empty).delete (entryKey space principal)
      else w.byConnection.read id' .empty :=
  JsMap.read_keep id id' JsMap.isEmpty_iff

/-- In the index by space the connection's principals lose theirs. -/
theorem principals_removed (w : AdmissionWaiters) (id space principal space' id' : JsString) :
    ((w.removed id space principal).bySpace.read space' .empty).read id' .empty =
      if space = space' ∧ id = id' then
        ((w.bySpace.read space .empty).read id .empty).delete principal
      else (w.bySpace.read space' .empty).read id' .empty := by
  rw [removed, JsMap.read_keep space space' JsMap.isEmpty_iff]
  by_cases hspace : space = space'
  · rw [if_pos hspace, JsMap.read_keep id id' JsSet.isEmpty_iff]
    by_cases hid : id = id'
    · rw [if_pos hid, if_pos ⟨hspace, hid⟩]
    · rw [if_neg hid, if_neg (fun h => hid h.2), hspace]
  · rw [if_neg hspace, if_neg (fun h => hspace h.1)]

theorem entriesOf_removed (hw : Coherent w) (id : JsString) {space : JsString}
    (principal : JsString) (h : NulFree space) (id' : JsString) :
    (w.removed id space principal).entriesOf id' =
      if id = id' then (w.entriesOf id).filter (· ≠ (space, principal)) else w.entriesOf id' := by
  rw [entriesOf_eq, read_removed]
  split
  · exact values_delete hw h
  · exact (entriesOf_eq w id').symm

theorem coherent_removed (hw : Coherent w) (id : JsString) {space : JsString}
    (principal : JsString) (h : NulFree space) : Coherent (w.removed id space principal) := by
  have hlists := entriesOf_removed hw id principal h
  have hsub : ∀ id', (w.removed id space principal).entriesOf id' ⊆ w.entriesOf id' := by
    intro id' e he
    rw [hlists] at he
    split at he
    case isTrue heq => exact heq ▸ (List.mem_filter.1 he).1
    case isFalse => exact he
  constructor
  · exact JsMap.tight_keep hw.connections id JsMap.isEmpty_iff
  · exact JsMap.tight_keep hw.spaces space JsMap.isEmpty_iff
  · intro space'
    rw [removed, JsMap.read_keep space space' JsMap.isEmpty_iff]
    split
    · exact JsMap.tight_keep (hw.inSpaces space) id JsSet.isEmpty_iff
    · exact hw.inSpaces space'
  · intro id' e he
    rw [read_removed] at he
    split at he
    · exact hw.keyed id e (List.mem_filter.1 he).1
    · exact hw.keyed id' e he
  · intro space' id' principal'
    rw [principals_removed, hlists]
    by_cases hid : id = id'
    · rw [if_pos hid, List.mem_filter, decide_eq_true_eq, ← hid]
      by_cases hspace : space = space'
      · rw [if_pos ⟨hspace, hid ▸ rfl⟩, JsSet.mem_delete, hw.same, ← hspace]
        simp [and_comm]
      · rw [if_neg (fun h => hspace h.1), hw.same]
        simp [Ne.symm hspace]
    · rw [if_neg (fun h => hid h.2), if_neg hid, hw.same]
  · intro id'
    rw [hlists]
    split
    · exact Nat.le_trans (List.length_filter_le _ _) (hw.bounded id)
    · exact hw.bounded id'
  · intro id' e he
    exact hw.owned id' e (hsub id' he)

theorem remove_becomes (hw : Coherent w) (id : JsString) {space : JsString} (principal : JsString)
    (h : NulFree space) : ∃ w', w.remove id space principal = some w' ∧
      Becomes w w' id ((w.entriesOf id).filter (· ≠ (space, principal))) := by
  by_cases hin : (space, principal) ∈ w.entriesOf id
  · exact ⟨_, remove_of_mem hw h hin, coherent_removed hw id principal h, rfl,
      entriesOf_removed hw id principal h⟩
  · exact ⟨w, remove_of_not_mem hw h hin, becomes_same hw (filter_ne_of_not_mem hin).symm⟩

theorem nulFree_of_mem (hw : Coherent w) {id : JsString}
    (h : e ∈ w.entriesOf id) : NulFree e.1 := by
  rw [entriesOf_eq] at h
  obtain ⟨e', he', rfl⟩ := List.mem_map.1 h
  exact (hw.keyed id e' he').2

theorem filter_ne_head {rest : List AdmissionEntry} (h : (e :: rest).Nodup) :
    (e :: rest).filter (· ≠ e) = rest := by
  rw [List.filter_cons_of_neg (by simp)]
  exact filter_ne_of_not_mem (List.nodup_cons.1 h).1

/-- A full list loses its oldest entry and nothing else. -/
theorem dropOldest_becomes (hw : Coherent w) (hlimit : 0 < w.limit) (id : JsString) :
    ∃ w', w.dropOldest id = some w' ∧ Becomes w w' id
      (if w.limit ≤ (w.entriesOf id).length then (w.entriesOf id).tail else w.entriesOf id) := by
  rw [dropOldest]
  cases hget : w.byConnection.get id with
  | none =>
    have hnil : w.entriesOf id = [] := by rw [entriesOf, hget]; rfl
    refine ⟨w, rfl, becomes_same hw ?_⟩
    rw [hnil, List.tail_nil, ite_self]
  | some held =>
    have hlist : w.entriesOf id = held.values := by rw [entriesOf, hget]; rfl
    have hlength : held.entries.length = (w.entriesOf id).length := by
      rw [hlist, JsMap.values, List.length_map]
    simp only [hlength]
    split
    case isTrue hfull =>
      rw [← hlist]
      cases hentries : w.entriesOf id with
      | nil =>
        rw [hentries] at hfull
        exact absurd hfull (Nat.not_le.2 hlimit)
      | cons e rest =>
        have hnul := nulFree_of_mem hw (hentries ▸ List.mem_cons_self : e ∈ w.entriesOf id)
        have hbecomes := remove_becomes hw id e.2 hnul
        rw [hentries, filter_ne_head (hentries ▸ nodup_entriesOf hw id)] at hbecomes
        exact hbecomes
    case isFalse hroom => exact ⟨w, rfl, becomes_same hw rfl⟩

/-- What an addition leaves where nothing has to go for it. -/
def added (w : AdmissionWaiters) (id space principal : JsString) : AdmissionWaiters :=
  let byConnection := w.bySpace.read space .empty
  { w with
    byConnection := w.byConnection.set id
      ((w.byConnection.read id .empty).set (entryKey space principal) (space, principal))
    bySpace := w.bySpace.set space
      (byConnection.set id ((byConnection.read id .empty).add principal)) }

section Added

variable {id space principal : JsString} (hw : Coherent w) (h : NulFree space)
  (hin : (space, principal) ∉ w.entriesOf id)
include hw h hin

theorem get_of_not_mem :
    (w.byConnection.read id .empty).get (entryKey space principal) = none := by
  have hhas := mem_entriesOf hw id principal h
  rw [← Option.not_isSome_iff_eq_none]
  exact fun hsome => hin (hhas.1 hsome)

theorem entriesOf_added (id' : JsString) : (w.added id space principal).entriesOf id' =
    if id = id' then w.entriesOf id ++ [(space, principal)] else w.entriesOf id' := by
  rw [entriesOf_eq, added, JsMap.read_set]
  split
  · rw [JsMap.values, JsMap.entries_set _ (get_of_not_mem hw h hin), List.map_append,
      entriesOf_eq, JsMap.values]
    rfl
  · exact (entriesOf_eq w id').symm

theorem coherent_added {holder : Holder} (hholder : holder.NulFree) (hkey : holder.key = id)
    (howns : holder.Owns (space, principal)) (hroom : (w.entriesOf id).length < w.limit) :
    Coherent (w.added id space principal) := by
  have hlists := entriesOf_added hw h hin
  have hprincipals : (((w.bySpace.read space .empty).read id .empty).add principal) ≠ .empty := by
    intro heq
    exact JsSet.not_mem_empty principal (heq ▸ JsSet.mem_add.2 (Or.inl rfl))
  have hset : ∀ {κ ν : Type} [DecidableEq κ] (m : JsMap κ ν) (k : κ) (v : ν), m.set k v ≠ .empty := by
    intro κ ν _ m k v heq
    have hget := JsMap.get_set_self m k v
    rw [heq] at hget
    cases hget
  constructor
  · exact JsMap.tight_set hw.connections id (hset _ _ _)
  · exact JsMap.tight_set hw.spaces space (hset _ _ _)
  · intro space'
    rw [added, JsMap.read_set]
    split
    · exact JsMap.tight_set (hw.inSpaces space) id hprincipals
    · exact hw.inSpaces space'
  · intro id' e he
    rw [added, JsMap.read_set] at he
    split at he
    · rw [JsMap.entries_set _ (get_of_not_mem hw h hin)] at he
      rcases List.mem_append.1 he with he | he
      · exact hw.keyed id e he
      · rw [List.mem_singleton.1 he]
        exact ⟨rfl, h⟩
    · exact hw.keyed id' e he
  · intro space' id' principal'
    rw [hlists, added, JsMap.read_set]
    by_cases hspace : space = space'
    · rw [if_pos hspace, JsMap.read_set]
      by_cases hid : id = id'
      · rw [if_pos hid, if_pos hid, JsSet.mem_add, hw.same, ← hspace]
        simp [or_comm]
      · rw [if_neg hid, if_neg hid, hw.same, hspace]
    · rw [if_neg hspace, hw.same]
      by_cases hid : id = id'
      · rw [if_pos hid, ← hid]
        simp [Ne.symm hspace]
      · rw [if_neg hid]
  · intro id'
    rw [hlists]
    split
    · rw [List.length_append]
      exact hroom
    · exact hw.bounded id'
  · intro id' e he
    rw [hlists] at he
    split at he
    case isTrue hid =>
      rcases List.mem_append.1 he with he | he
      · exact hid ▸ hw.owned id e he
      · rw [List.mem_singleton.1 he]
        exact ⟨holder, hholder, hkey.trans hid, howns⟩
    case isFalse => exact hw.owned id' e he

end Added

theorem add_becomes (hw : Coherent w) (hlimit : 0 < w.limit) (holder : Holder)
    (hholder : holder.NulFree) {space : JsString} (principal : JsString) (h : NulFree space)
    (howns : holder.Owns (space, principal)) :
    ∃ w', w.add holder.key space principal = some w' ∧
      Becomes w w' holder.key (addTo w.limit (w.entriesOf holder.key) (space, principal)) := by
  have hhas := any_has hw holder.key principal h
  rw [add, addTo]
  by_cases hin : (space, principal) ∈ w.entriesOf holder.key
  · rw [if_pos (hhas.2 hin), if_pos hin]
    exact ⟨w, rfl, becomes_same hw rfl⟩
  · rw [if_neg fun h => hin (hhas.1 h), if_neg hin]
    obtain ⟨w₁, hdrop, hw₁, hlimit₁, hlists₁⟩ := dropOldest_becomes hw hlimit holder.key
    have hlist : w₁.entriesOf holder.key = if w.limit ≤ (w.entriesOf holder.key).length then
        (w.entriesOf holder.key).tail else w.entriesOf holder.key := by
      rw [hlists₁, if_pos rfl]
    have hin₁ : (space, principal) ∉ w₁.entriesOf holder.key := by
      rw [hlist]
      split
      · exact fun h => hin (List.mem_of_mem_tail h)
      · exact hin
    have hroom : (w₁.entriesOf holder.key).length < w₁.limit := by
      have hbounded := hw.bounded holder.key
      rw [hlist, hlimit₁]
      split
      · rw [List.length_tail]
        omega
      · omega
    rw [hdrop]
    refine ⟨w₁.added holder.key space principal, rfl,
      coherent_added hw₁ h hin₁ hholder rfl howns hroom, hlimit₁, ?_⟩
    intro id'
    rw [entriesOf_added hw₁ h hin₁, hlist, hlists₁]
    by_cases hid : holder.key = id'
    · rw [if_pos hid, if_pos hid]
      split <;> rfl
    · rw [if_neg hid, if_neg hid, if_neg hid]

/-- Removals one after another take just what they name. -/
theorem removeMany_spec {l : List (JsString × AdmissionEntry)} (hw : Coherent w)
    (hl : ∀ x ∈ l, NulFree x.2.1) : ∃ w',
      l.foldlM (fun (w : AdmissionWaiters) x => w.remove x.1 x.2.1 x.2.2) w = some w' ∧
      Coherent w' ∧ w'.limit = w.limit ∧
      ∀ id, w'.entriesOf id = (w.entriesOf id).filter fun e => (id, e) ∉ l := by
  induction l generalizing w with
  | nil => exact ⟨w, rfl, hw, rfl, fun id => (List.filter_eq_self.2 (by simp)).symm⟩
  | cons x rest ih =>
    obtain ⟨w₁, hremove, hw₁, hlimit₁, hlists₁⟩ :=
      remove_becomes hw x.1 x.2.2 (hl x List.mem_cons_self)
    obtain ⟨w₂, hrest, hw₂, hlimit₂, hlists₂⟩ :=
      ih hw₁ fun y hy => hl y (List.mem_cons_of_mem _ hy)
    refine ⟨w₂, ?_, hw₂, hlimit₂.trans hlimit₁, ?_⟩
    · rw [List.foldlM_cons, hremove]
      exact hrest
    · intro id
      rw [hlists₂, hlists₁]
      by_cases hid : x.1 = id
      · rw [if_pos hid, hid, List.filter_filter]
        apply List.filter_congr
        intro e _
        rw [← hid]
        by_cases he : e = x.2
        · subst he
          simp
        · have hne : (x.1, e) ≠ x := fun heq => he (congrArg Prod.snd heq)
          have he' : e ≠ (x.2.1, x.2.2) := he
          simp [he', hne]
      · rw [if_neg hid]
        apply List.filter_congr
        intro e _
        have hne : (id, e) ≠ x := fun heq => hid (congrArg Prod.fst heq).symm
        simp [hne]

/-- Removals of entries of one connection. -/
theorem removeSome_becomes (hw : Coherent w) (id : JsString) (p : AdmissionEntry → Bool) :
    ∃ w', ((w.entriesOf id).filter p).foldlM
        (fun (w : AdmissionWaiters) e => w.remove id e.1 e.2) w = some w' ∧
      Becomes w w' id ((w.entriesOf id).filter fun e => !p e) := by
  obtain ⟨w', hremoves, hw', hlimit, hlists⟩ :=
    removeMany_spec (l := ((w.entriesOf id).filter p).map fun e => (id, e)) hw (by
      intro x hx
      obtain ⟨e, he, rfl⟩ := List.mem_map.1 hx
      exact nulFree_of_mem hw (List.mem_filter.1 he).1)
  rw [List.foldlM_map] at hremoves
  refine ⟨w', hremoves, hw', hlimit, ?_⟩
  intro id'
  rw [hlists]
  by_cases hid : id = id'
  · rw [if_pos hid, hid]
    apply List.filter_congr
    intro e he
    have hmem : (id', e) ∈ ((w.entriesOf id').filter p).map (fun e => (id', e)) ↔ p e = true := by
      simp [he]
    simp only [hmem]
    cases p e <;> rfl
  · rw [if_neg hid]
    apply List.filter_eq_self.2
    intro e _
    simp [hid]

theorem removePrincipal_becomes (hw : Coherent w) (id principal : JsString) :
    ∃ w', w.removePrincipal id principal = some w' ∧
      Becomes w w' id ((w.entriesOf id).filter (·.2 ≠ principal)) := by
  obtain ⟨w', hremoves, hbecomes⟩ := removeSome_becomes hw id fun e => decide (e.2 = principal)
  rw [List.foldlM_filter] at hremoves
  simp only [decide_eq_true_eq] at hremoves
  simp only [← decide_not] at hbecomes
  exact ⟨w', hremoves, hbecomes⟩

theorem removeConnection_becomes (hw : Coherent w) (id : JsString) :
    ∃ w', w.removeConnection id = some w' ∧ Becomes w w' id [] := by
  obtain ⟨w', hremoves, hbecomes⟩ := removeSome_becomes hw id fun _ => true
  rw [List.filter_true] at hremoves
  rw [show (w.entriesOf id).filter (fun _ => !true) = [] from List.filter_false _] at hbecomes
  exact ⟨w', hremoves, hbecomes⟩

/-- The entries of a connection go one by one to the lists of their principals. -/
theorem hold_spec {id : JsString} (hid : NulFree id) {l : List AdmissionEntry} (hw : Coherent w)
    (hlimit : 0 < w.limit) (hl : w.entriesOf id = l) : ∃ w',
      l.foldlM (fun (w : AdmissionWaiters) e =>
        (w.remove id e.1 e.2).bind fun w => w.add (heldKey e.2) e.1 e.2) w = some w' ∧
      Coherent w' ∧ w'.limit = w.limit ∧
      (∀ id', NulFree id' → w'.entriesOf id' = if id' = id then [] else w.entriesOf id') ∧
      ∀ principal, w'.entriesOf (heldKey principal) =
        (l.filter (·.2 = principal)).foldl (addTo w.limit) (w.entriesOf (heldKey principal)) := by
  have hne : ∀ {id' principal : JsString}, NulFree id' → heldKey principal ≠ id' := by
    rintro id' principal hnul rfl
    exact not_nulFree_heldKey principal hnul
  induction l generalizing w with
  | nil =>
    refine ⟨w, rfl, hw, rfl, ?_, fun _ => rfl⟩
    intro id' _
    split
    case isTrue heq => rw [heq, hl]
    case isFalse => rfl
  | cons e rest ih =>
    have hnul := nulFree_of_mem hw (hl ▸ List.mem_cons_self : e ∈ w.entriesOf id)
    obtain ⟨w₁, hremove, hw₁, hlimit₁, hlists₁⟩ := remove_becomes hw id e.2 hnul
    rw [hl, filter_ne_head (hl ▸ nodup_entriesOf hw id)] at hlists₁
    obtain ⟨w₂, hadd, hw₂, hlimit₂, hlists₂⟩ :=
      add_becomes hw₁ (hlimit₁ ▸ hlimit) (.held e.2) trivial e.2 hnul rfl
    have hlists₂ : ∀ id', w₂.entriesOf id' =
        if heldKey e.2 = id' then addTo w₁.limit (w₁.entriesOf (heldKey e.2)) e
        else w₁.entriesOf id' := hlists₂
    have hlimits : w₂.limit = w.limit := hlimit₂.trans hlimit₁
    have hrest : w₂.entriesOf id = rest := by
      rw [hlists₂, if_neg (hne hid), hlists₁, if_pos rfl]
    obtain ⟨w₃, hloop, hw₃, hlimit₃, hothers, hheld⟩ := ih hw₂ (hlimits ▸ hlimit) hrest
    refine ⟨w₃, ?_, hw₃, hlimit₃.trans hlimits, ?_, ?_⟩
    · rw [List.foldlM_cons, hremove, Option.bind_some]
      exact (congrArg (· >>= _) hadd).trans hloop
    · intro id' hnul'
      rw [hothers id' hnul', hlists₂, if_neg (hne hnul'), hlists₁]
      by_cases heq : id' = id
      · rw [if_pos heq, if_pos heq]
      · rw [if_neg heq, if_neg heq, if_neg (Ne.symm heq)]
    · intro principal
      have hkept : w₁.entriesOf (heldKey principal) = w.entriesOf (heldKey principal) := by
        rw [hlists₁, if_neg (hne hid).symm]
      rw [hheld, hlimits, hlists₂, hlimit₁]
      by_cases hprincipal : e.2 = principal
      · rw [if_pos (by rw [hprincipal]), List.filter_cons_of_pos (by simpa using hprincipal),
          List.foldl_cons, hprincipal, hkept, ← hprincipal]
      · rw [if_neg (fun heq => hprincipal (heldKey_inj heq)),
          List.filter_cons_of_neg (by simpa using hprincipal), hkept]

theorem mem_admitted (hw : Coherent w) {space id principal : JsString} {admits : JsString → Bool} :
    (id, principal) ∈ w.admitted space admits ↔
      (space, principal) ∈ w.entriesOf id ∧ admits principal = true := by
  rw [← hw.same, JsMap.read, admitted, List.mem_flatMap]
  constructor
  · rintro ⟨e, he, hmem⟩
    obtain ⟨principal', hprincipal, heq⟩ := List.mem_map.1 hmem
    cases heq
    rw [JsMap.get_of_mem he]
    exact List.mem_filter.1 hprincipal
  · rintro ⟨hmem, hadmits⟩
    cases hget : (w.bySpace.read space .empty).get id with
    | none =>
      rw [hget] at hmem
      exact absurd hmem (JsSet.not_mem_empty principal)
    | some principals =>
      rw [hget] at hmem
      exact ⟨_, JsMap.mem_of_get hget,
        List.mem_map.2 ⟨principal, List.mem_filter.2 ⟨hmem, hadmits⟩, rfl⟩⟩

theorem nodup_admitted (w : AdmissionWaiters) (space : JsString) (admits : JsString → Bool) :
    (w.admitted space admits).Nodup := by
  rw [admitted, List.nodup_flatMap]
  constructor
  · intro e _
    exact (e.2.nodup.filter _).map fun a b h => congrArg Prod.snd h
  · have hkeys := List.pairwise_map.1 (w.bySpace.read space .empty).nodup
    apply hkeys.imp
    intro e e' hne x hx hx'
    obtain ⟨_, _, rfl⟩ := List.mem_map.1 hx
    obtain ⟨_, _, heq⟩ := List.mem_map.1 hx'
    exact hne (congrArg Prod.fst heq).symm

theorem owner (hw : Coherent w) {id : JsString} (h : e ∈ w.entriesOf id) :
    (NulFree id ∧ id.startsWith heldPrefix = false) ∨
      (id = heldKey e.2 ∧ id.startsWith heldPrefix = true) := by
  obtain ⟨holder, hnul, rfl, howns⟩ := hw.owned id e h
  cases holder with
  | connection id => exact Or.inl ⟨hnul, not_startsWith hnul⟩
  | held principal =>
    have hprincipal : e.2 = principal := howns
    rw [hprincipal]
    exact Or.inr ⟨rfl, startsWith_heldKey principal⟩

/-- The entries a `take` returns, and those it leaves. -/
theorem take_spec (hw : Coherent w) {space : JsString} (h : NulFree space)
    (admits : JsString → Bool) : ∃ out w', w.take space admits = some (out, w') ∧
      Coherent w' ∧ w'.limit = w.limit ∧
      (∀ id, w'.entriesOf id =
        (w.entriesOf id).filter fun e => !(e.1 = space && admits e.2)) ∧
      out.Nodup ∧
      (∀ id principal, (some id, principal) ∈ out ↔
        NulFree id ∧ (space, principal) ∈ w.entriesOf id ∧ admits principal = true) ∧
      ∀ principal, (none, principal) ∈ out ↔
        (space, principal) ∈ w.entriesOf (heldKey principal) ∧ admits principal = true := by
  obtain ⟨w', hremoves, hw', hlimit, hlists⟩ :=
    removeMany_spec (l := (w.admitted space admits).map fun e => (e.1, space, e.2)) hw (by
      intro x hx
      obtain ⟨e, he, rfl⟩ := List.mem_map.1 hx
      exact h)
  rw [List.foldlM_map] at hremoves
  refine ⟨(w.admitted space admits).map fun e =>
      (if e.1.startsWith heldPrefix then none else some e.1, e.2), w',
    by rw [take]; simp only [hremoves, Option.map_some], hw', hlimit, ?_, ?_, ?_, ?_⟩
  · intro id
    rw [hlists]
    apply List.filter_congr
    intro e he
    have hmem : (id, e) ∈ (w.admitted space admits).map (fun e => (e.1, space, e.2)) ↔
        e.1 = space ∧ admits e.2 = true := by
      rw [List.mem_map]
      constructor
      · rintro ⟨x, hx, heq⟩
        cases heq
        exact ⟨rfl, ((mem_admitted hw).1 hx).2⟩
      · rintro ⟨rfl, hadmits⟩
        exact ⟨(id, e.2), (mem_admitted hw).2 ⟨he, hadmits⟩, rfl⟩
    simp only [hmem]
    by_cases hspace : e.1 = space <;> simp [hspace]
  · apply (nodup_admitted w space admits).map_on
    rintro ⟨id, principal⟩ hx ⟨id', principal'⟩ hx' heq
    have howner := owner hw ((mem_admitted hw).1 hx).1
    have howner' := owner hw ((mem_admitted hw).1 hx').1
    have hprincipal : principal = principal' := congrArg Prod.snd heq
    have hid := congrArg Prod.fst heq
    rcases howner with ⟨-, hstarts⟩ | ⟨hkey, hstarts⟩ <;>
      rcases howner' with ⟨-, hstarts'⟩ | ⟨hkey', hstarts'⟩ <;>
      simp only [hstarts, hstarts', if_true, Bool.false_eq_true, if_false] at hid
    · rw [Option.some.inj hid, hprincipal]
    · cases hid
    · cases hid
    · rw [hkey, hkey', hprincipal]
  · intro id principal
    rw [List.mem_map]
    constructor
    · rintro ⟨⟨id', principal'⟩, hx, heq⟩
      have hmem := (mem_admitted hw).1 hx
      have hprincipal : principal' = principal := congrArg Prod.snd heq
      have hid := congrArg Prod.fst heq
      rcases owner hw hmem.1 with ⟨hnul, hstarts⟩ | ⟨-, hstarts⟩ <;>
        simp only [hstarts, if_true, Bool.false_eq_true, if_false] at hid
      · rw [← Option.some.inj hid, ← hprincipal]
        exact ⟨hnul, hmem⟩
      · cases hid
    · rintro ⟨hnul, hmem⟩
      refine ⟨(id, principal), (mem_admitted hw).2 hmem, ?_⟩
      simp only [not_startsWith hnul, Bool.false_eq_true, if_false]
  · intro principal
    rw [List.mem_map]
    constructor
    · rintro ⟨⟨id', principal'⟩, hx, heq⟩
      have hmem := (mem_admitted hw).1 hx
      have hprincipal : principal' = principal := congrArg Prod.snd heq
      have hid := congrArg Prod.fst heq
      rcases owner hw hmem.1 with ⟨-, hstarts⟩ | ⟨hkey, hstarts⟩ <;>
        simp only [hstarts, if_true, Bool.false_eq_true, if_false] at hid
      · cases hid
      · have hkey : id' = heldKey principal' := hkey
        rw [hkey, hprincipal] at hmem
        exact hmem
    · intro hmem
      refine ⟨(heldKey principal, principal), (mem_admitted hw).2 hmem, ?_⟩
      simp only [startsWith_heldKey, if_true]

theorem represents_update (hlists : Represents w lists) {w' : AdmissionWaiters}
    {holder : Holder} (hnul : holder.NulFree) (h : Becomes w w' holder.key entries) :
    Represents w' (Function.update lists holder entries) := by
  intro h'
  constructor
  · intro hnul'
    rw [h.lists, Function.update_apply]
    by_cases heq : h' = holder
    · rw [if_pos heq, heq, if_pos rfl]
    · rw [if_neg heq, if_neg fun hkey => heq (Holder.key_inj hnul' hnul hkey.symm)]
      exact (hlists h').1 hnul'
  · intro hnul'
    rw [Function.update_of_ne fun heq : h' = holder => hnul' (heq ▸ hnul)]
    exact (hlists h').2 hnul'

/-- What an operation keeps, and what it returns. -/
def Follows (w : AdmissionWaiters) (lists : Lists) (op : Op) : Prop :=
  ∃ out w', w.step op = some (out, w') ∧ Coherent w' ∧ w'.limit = w.limit ∧
    Represents w' (lists.step w.limit op) ∧ lists.Returns op out

theorem follows_of_becomes {op : Op} {out : Output} {w' : AdmissionWaiters} (holder : Holder)
    (hlists : Represents w lists)
    (hnul : holder.NulFree) (hstep : w.step op = some (out, w'))
    (h : Becomes w w' holder.key entries)
    (hupdate : lists.step w.limit op = Function.update lists holder entries)
    (hreturns : lists.Returns op out) : Follows w lists op :=
  ⟨out, w', hstep, h.coherent, h.limit, hupdate ▸ represents_update hlists hnul h, hreturns⟩

theorem step_follows (hw : Coherent w) (hlimit : 0 < w.limit)
    (hlists : Represents w lists) {op : Op} (hop : op.NulFree) : Follows w lists op := by
  cases op with
  | add connectionId space principal =>
    obtain ⟨w', hadd, hbecomes⟩ :=
      add_becomes hw hlimit (.connection connectionId) hop.1 principal hop.2 trivial
    refine follows_of_becomes (.connection connectionId) hlists hop.1
      (congrArg (Option.map _) hadd) hbecomes ?_ rfl
    rw [(hlists (.connection connectionId)).1 hop.1]
    rfl
  | hold connectionId =>
    obtain ⟨w', hhold, hw', hlimit', hothers, hheld⟩ := hold_spec hop hw hlimit rfl
    refine ⟨.done, w', congrArg (Option.map _) hhold, hw', hlimit', ?_, rfl⟩
    have hlist := (hlists (.connection connectionId)).1 hop
    rintro (id | principal)
    · constructor
      · intro hnul
        rw [Holder.key, hothers id hnul]
        show _ = if id = connectionId then [] else lists (.connection id)
        rw [← (hlists (.connection id)).1 hnul]
        rfl
      · intro hnul
        show (if id = connectionId then [] else lists (.connection id)) = []
        rw [(hlists (.connection id)).2 hnul, ite_self]
    · refine ⟨fun _ => ?_, fun hnul => absurd trivial hnul⟩
      rw [Holder.key, hheld]
      show _ = ((lists (.connection connectionId)).filter (·.2 = principal)).foldl (addTo w.limit)
        (lists (.held principal))
      rw [← hlist, ← (hlists (.held principal)).1 trivial]
      rfl
  | remove connectionId space principal =>
    obtain ⟨w', hremove, hbecomes⟩ := remove_becomes hw connectionId principal hop.2
    refine follows_of_becomes (.connection connectionId) hlists hop.1
      (congrArg (Option.map _) hremove) hbecomes ?_ rfl
    rw [Lists.step, ← (hlists (.connection connectionId)).1 hop.1]
    rfl
  | removePrincipal connectionId principal =>
    obtain ⟨w', hremoves, hbecomes⟩ := removePrincipal_becomes hw connectionId principal
    refine follows_of_becomes (.connection connectionId) hlists hop
      (congrArg (Option.map _) hremoves) hbecomes ?_ rfl
    rw [Lists.step, ← (hlists (.connection connectionId)).1 hop]
    rfl
  | removeConnection connectionId =>
    obtain ⟨w', hremoves, hbecomes⟩ := removeConnection_becomes hw connectionId
    exact follows_of_becomes (.connection connectionId) hlists hop
      (congrArg (Option.map _) hremoves) hbecomes rfl rfl
  | removeHeld space principal =>
    obtain ⟨w', hremove, hbecomes⟩ := remove_becomes hw (heldKey principal) principal hop
    have hlist := (hlists (.held principal)).1 trivial
    refine follows_of_becomes (.held principal) hlists trivial
      (congrArg (Option.map _) (congrArg (Option.map _) hremove)) hbecomes ?_ ?_
    · rw [Lists.step, ← hlist]
      rfl
    · refine congrArg Output.found ?_
      rw [Bool.eq_iff_iff, decide_eq_true_eq, ← hlist]
      exact any_has hw (heldKey principal) principal hop
  | releaseHeld principal =>
    obtain ⟨w', hremoves, hbecomes⟩ := removeConnection_becomes hw (heldKey principal)
    exact follows_of_becomes (.held principal) hlists trivial
      (congrArg (Option.map _) hremoves) hbecomes rfl rfl
  | take space admits =>
    obtain ⟨out, w', htake, hw', hlimit', hleft, hnodup, hconnections, hheld⟩ :=
      take_spec hw hop admits
    refine ⟨.taken out, w', congrArg (Option.map _) htake, hw', hlimit', ?_, out, rfl, hnodup, ?_, ?_⟩
    · intro holder
      constructor
      · intro hnul
        rw [hleft, (hlists holder).1 hnul]
        rfl
      · intro hnul
        show (lists holder).filter _ = []
        rw [(hlists holder).2 hnul]
        rfl
    · intro id principal
      rw [hconnections]
      by_cases hnul : NulFree id
      · rw [← (hlists (.connection id)).1 hnul]
        exact and_iff_right hnul
      · rw [(hlists (.connection id)).2 hnul]
        exact iff_of_false (fun h => hnul h.1) fun h => List.not_mem_nil h.1
    · intro principal
      rw [hheld, ← (hlists (.held principal)).1 trivial]
      rfl

/-- From the indexes that hold nothing every run follows the lists. -/
theorem run_follows {ops : List Op} (hw : Coherent w) (hlimit : 0 < w.limit)
    (hlists : Represents w lists) (hops : ∀ op ∈ ops, op.NulFree) : ∃ w', w.run ops = some w' ∧
      Coherent w' ∧ w'.limit = w.limit ∧ Represents w' (ops.foldl (Lists.step w.limit) lists) := by
  induction ops generalizing w lists with
  | nil => exact ⟨w, rfl, hw, rfl, hlists⟩
  | cons op ops ih =>
    obtain ⟨out, w₁, hstep, hw₁, hlimit₁, hlists₁, -⟩ :=
      step_follows hw hlimit hlists (hops op List.mem_cons_self)
    obtain ⟨w₂, hrun, hw₂, hlimit₂, hlists₂⟩ :=
      ih hw₁ (hlimit₁ ▸ hlimit) hlists₁ fun op' h => hops op' (List.mem_cons_of_mem _ h)
    refine ⟨w₂, ?_, hw₂, hlimit₂.trans hlimit₁, ?_⟩
    · rw [run, List.foldlM_cons, hstep]
      exact hrun
    · rw [List.foldl_cons, ← hlimit₁]
      exact hlimit₁ ▸ hlists₂

theorem coherent_empty (limit : Nat) : Coherent ⟨.empty, .empty, limit⟩ := by
  constructor
  · exact JsMap.tight_empty
  · exact JsMap.tight_empty
  · intro space
    rw [JsMap.read_empty]
    exact JsMap.tight_empty
  · intro id e he
    cases he
  · intro space id principal
    exact iff_of_false (JsSet.not_mem_empty principal) List.not_mem_nil
  · intro id
    exact Nat.zero_le limit
  · intro id e he
    cases he

/-- After any operations the two indexes list the same entries, none in an empty collection, no list
is longer than the limit, and the next operation does to the lists what it names and returns what
they have for it. -/
theorem waiters_follow_lists {limit : Nat} {w : AdmissionWaiters}
    (hconstruct : construct limit = some w) (ops : List Op) (hops : ∀ op ∈ ops, op.NulFree) :
    ∃ w', w.run ops = some w' ∧ Coherent w' ∧ w'.limit = limit ∧
      Represents w' (ops.foldl (Lists.step limit) fun _ => []) ∧
      ∀ op : Op, op.NulFree → Follows w' (ops.foldl (Lists.step limit) fun _ => []) op := by
  rw [construct] at hconstruct
  split at hconstruct
  case isTrue => cases hconstruct
  case isFalse hlimit =>
    cases hconstruct
    obtain ⟨w', hrun, hw', hlimit', hlists⟩ := run_follows (coherent_empty limit)
      (Nat.not_lt.1 hlimit) (fun _ => ⟨fun _ => rfl, fun _ => rfl⟩) hops
    exact ⟨w', hrun, hw', hlimit', hlists,
      fun op hop => step_follows hw' (hlimit'.symm ▸ Nat.not_lt.1 hlimit) hlists hop⟩

/-- An entry that another drops, and that goes on when its connection closes. -/
theorem waiters_follow_lists_dropped : ∃ w',
    run ⟨.empty, .empty, 1⟩ [.add ⟨[1]⟩ ⟨[2]⟩ ⟨[3]⟩, .add ⟨[1]⟩ ⟨[2]⟩ ⟨[4]⟩, .hold ⟨[1]⟩] = some w' ∧
      Coherent w' ∧ w'.limit = 1 ∧
      Represents w' (List.foldl (Lists.step 1) (fun _ => [])
        [.add ⟨[1]⟩ ⟨[2]⟩ ⟨[3]⟩, .add ⟨[1]⟩ ⟨[2]⟩ ⟨[4]⟩, .hold ⟨[1]⟩]) ∧
      ∀ op : Op, op.NulFree → Follows w' (List.foldl (Lists.step 1) (fun _ => [])
        [.add ⟨[1]⟩ ⟨[2]⟩ ⟨[3]⟩, .add ⟨[1]⟩ ⟨[2]⟩ ⟨[4]⟩, .hold ⟨[1]⟩]) op :=
  waiters_follow_lists rfl _ (by
    intro op hop
    simp only [List.mem_cons, List.not_mem_nil, or_false] at hop
    rcases hop with rfl | rfl | rfl <;> simp [Op.NulFree, NulFree])

example : (run ⟨.empty, .empty, 1⟩
    [.add ⟨[1]⟩ ⟨[2]⟩ ⟨[3]⟩, .add ⟨[1]⟩ ⟨[2]⟩ ⟨[4]⟩, .hold ⟨[1]⟩]).map
      (fun w => (w.entriesOf ⟨[1]⟩, w.entriesOf (heldKey ⟨[3]⟩), w.entriesOf (heldKey ⟨[4]⟩))) =
    some ([], [], [(⟨[2]⟩, ⟨[4]⟩)]) := by decide +kernel

end AdmissionWaiters
