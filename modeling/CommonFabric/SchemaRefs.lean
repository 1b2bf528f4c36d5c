import CommonFabric.LinkSchemas
import CommonFabric.Worklist

/-!
# Reserved schema references

A string with a reserved prefix stands for a schema on the wire. Two scans look for one in
a value: at the positions where a client would take it for a schema, and anywhere.
-/

open CellRep

def SYNC_SCHEMA_REF_PREFIX : JsString := "schema-ref@2:"
def REQUEST_SCHEMA_CAS_REF_PREFIX : JsString := "schema-cas@1:"

def isReservedSchemaRef (value : JsString) : Bool :=
  value.startsWith SYNC_SCHEMA_REF_PREFIX || value.startsWith REQUEST_SCHEMA_CAS_REF_PREFIX

/-- The reserved reference that a value is, if it is one. -/
def reservedRef? : FabricValue → Option JsString
  | .string ref => if isReservedSchemaRef ref then some ref else none
  | _ => none

def payloadSchemaRef (payload : Members) : Option JsString :=
  (Fields.get? payload "schema").bind reservedRef?

namespace FabricValue

mutual
/-- The values a value consists of, with its holes. -/
def nodeCount : FabricValue → Nat
  | .array slots => 1 + slotCount slots
  | .record fields => 1 + memberCount fields
  | .special _ state => 1 + nodeCount state
  | _ => 1

def slotCount : List (Option FabricValue) → Nat
  | [] => 0
  | none :: slots => 1 + slotCount slots
  | some item :: slots => nodeCount item + slotCount slots

def memberCount : Members → Nat
  | [] => 0
  | (_, child) :: rest => nodeCount child + memberCount rest
end

theorem nodeCount_pos (value : FabricValue) : 0 < nodeCount value := by
  cases value <;> simp only [nodeCount] <;> omega

theorem sum_slots (slots : List (Option FabricValue)) :
    ((slots.map (·.getD .undefined)).map nodeCount).sum = slotCount slots := by
  induction slots with
  | nil => rfl
  | cons slot slots ih => cases slot <;> simp [slotCount, nodeCount, ← ih]

theorem sum_members (fields : Members) : ((fields.map (·.2)).map nodeCount).sum =
    memberCount fields := by
  induction fields with
  | nil => rfl
  | cons member rest ih => simp [memberCount, ← ih]

theorem memberCount_erase_le (fields : Members) (key : JsString) :
    memberCount (Fields.erase fields key) ≤ memberCount fields := by
  induction fields with
  | nil => exact Nat.le_refl _
  | cons member rest ih =>
    obtain ⟨k, child⟩ := member
    rw [Fields.erase_cons, memberCount]
    by_cases hk : k = key
    · rw [if_pos hk]
      omega
    · rw [if_neg hk, memberCount]
      omega

theorem nodeCount_add_erase_le {fields : Members} {key : JsString} {child : FabricValue}
    (h : Fields.get? fields key = some child) :
    nodeCount child + memberCount (Fields.erase fields key) ≤ memberCount fields := by
  induction fields with
  | nil => cases h
  | cons member rest ih =>
    obtain ⟨k, value⟩ := member
    rw [Fields.get?_cons] at h
    have hrest := memberCount_erase_le rest key
    rw [Fields.erase_cons, memberCount]
    by_cases hk : k = key
    · rw [if_pos hk] at h ⊢
      cases h
      omega
    · rw [if_neg hk] at h ⊢
      have := ih h
      rw [memberCount]
      omega

theorem memberCount_linkPayload_lt {modern : Bool} {value : FabricValue} {payload : Members}
    (h : linkPayload? modern value = some payload) : memberCount payload < nodeCount value := by
  unfold linkPayload? at h
  split at h
  · split at h
    · cases h
      simp only [nodeCount]
      omega
    · cases h
  · split at h
    · split at h
      · rename_i hpayload
        cases h
        have := nodeCount_add_erase_le hpayload
        simp only [nodeCount, memberCount] at this ⊢
        omega
      · cases h
    · cases h
  · cases h

end FabricValue

open FabricValue

/-- The reference that `findSyncSchemaRef` refuses a value for: a link's schema, or that of a
legacy alias. -/
def refAt (modern : Bool) (current : FabricValue) : Option JsString :=
  match linkPayload? modern current with
  | some payload => payloadSchemaRef payload
  | none => match current with
    | .record fields => match Fields.get? fields "$alias" with
      | some (.record legacyAlias) => payloadSchemaRef legacyAlias
      | _ => none
    | _ => none

/-- What `findSyncSchemaRef` pushes for a value. The members of a legacy alias take its
place: it is not asked whether it is a link. -/
def checkedOn (modern : Bool) (current : FabricValue) : List FabricValue :=
  match linkPayload? modern current with
  | some payload => (Fields.erase payload "schema").map (·.2)
  | none => match current with
    | .array slots => slots.map (·.getD .undefined)
    | .record fields => match Fields.get? fields "$alias" with
      | some (.record legacyAlias) =>
        legacyAlias.map (·.2) ++ (Fields.erase fields "$alias").map (·.2)
      | _ => fields.map (·.2)
    | _ => []

def visitForRef (modern : Bool) (current : FabricValue) : Except JsString (List FabricValue) :=
  match refAt modern current with
  | some ref => .error ref
  | none => .ok (checkedOn modern current)

theorem sum_checkedOn_lt (modern : Bool) (value : FabricValue) :
    ((checkedOn modern value).map nodeCount).sum < nodeCount value := by
  unfold checkedOn
  split
  · rename_i payload hlink
    have := memberCount_linkPayload_lt hlink
    have := memberCount_erase_le payload "schema"
    rw [sum_members]
    omega
  · split
    · rw [sum_slots, nodeCount]
      omega
    · split
      · rename_i legacyAlias halias
        have := nodeCount_add_erase_le halias
        rw [List.map_append, List.sum_append, sum_members, sum_members, nodeCount]
        simp only [nodeCount] at this
        omega
      · rw [sum_members, nodeCount]
        omega
    · exact nodeCount_pos value

theorem visitForRef_smaller (modern : Bool) (value : FabricValue) (pushed : List FabricValue)
    (h : visitForRef modern value = .ok pushed) :
    (pushed.map nodeCount).sum < nodeCount value := by
  unfold visitForRef at h
  split at h
  · cases h
  · cases h
    exact sum_checkedOn_lt modern value

def findSyncSchemaRef (modern : Bool) (value : FabricValue) : Option JsString :=
  Worklist.search nodeCount (visitForRef modern) (visitForRef_smaller modern) [value]

/-- One turn of `containsSyncSchemaRefString`. -/
def visitForString (modern : Bool) : FabricValue → Except Unit (List FabricValue)
  | .string value => if isReservedSchemaRef value then .error () else .ok []
  | .array slots => .ok (slots.map (·.getD .undefined))
  | .special tag state => .ok (if modern && tag = FABRIC_LINK_TAG then [state] else [])
  | .record fields => .ok (fields.map (·.2))
  | _ => .ok []

theorem visitForString_smaller (modern : Bool) (value : FabricValue) (pushed : List FabricValue)
    (h : visitForString modern value = .ok pushed) :
    (pushed.map nodeCount).sum < nodeCount value := by
  unfold visitForString at h
  split at h
  · split at h
    · cases h
    · cases h
      exact nodeCount_pos _
  · cases h
    rw [sum_slots, nodeCount]
    omega
  · cases h
    split
    · simp [nodeCount]
    · exact nodeCount_pos _
  · cases h
    rw [sum_members, nodeCount]
    omega
  · cases h
    exact nodeCount_pos value

def containsSyncSchemaRefString (modern : Bool) (value : FabricValue) : Bool :=
  (Worklist.search nodeCount (visitForString modern) (visitForString_smaller modern)
    [value]).isSome

/-- The legacy alias of a record, where it has the form of a link. -/
def aliasedLink? (modern : Bool) (value : FabricValue) : Option FabricValue :=
  match linkPayload? modern value with
  | some _ => none
  | none => match value with
    | .record fields => match Fields.get? fields "$alias" with
      | some (.record legacyAlias) =>
        if (linkPayload? modern (.record legacyAlias)).isSome then some (.record legacyAlias) else none
      | _ => none
    | _ => none

/-- The schemas at the positions of links that stand directly under `$alias`. -/
def aliasedSchemas (modern : Bool) (value : FabricValue) : List FabricValue :=
  (nodes modern value).flatMap fun node => (aliasedLink? modern node).toList.flatMap (schemasOf modern)

section
variable {modern : Bool}

variable {value : FabricValue}

theorem mem_aliasedSchemas_of_walkedOn {next schema : FabricValue}
    (hnext : next ∈ walkedOn modern value) (h : schema ∈ aliasedSchemas modern next) :
    schema ∈ aliasedSchemas modern value := by
  obtain ⟨node, hnode, hschema⟩ := List.mem_flatMap.1 h
  exact List.mem_flatMap.2 ⟨node, mem_nodes_of_walkedOn hnext hnode, hschema⟩

theorem mem_schemasOf_of_aliased {schema : FabricValue}
    (h : schema ∈ aliasedSchemas modern value) : schema ∈ schemasOf modern value := by
  obtain ⟨node, hnode, hschema⟩ := List.mem_flatMap.1 h
  obtain ⟨link, hlink, hschema⟩ := List.mem_flatMap.1 hschema
  rw [Option.mem_toList] at hlink
  refine mem_schemasOf_of_nodes hnode (mem_schemasOf_of_walkedOn ?_ hschema)
  unfold aliasedLink? at hlink
  split at hlink
  · cases hlink
  rename_i hnone
  split at hlink
  · split at hlink
    · rename_i halias
      split at hlink
      · cases hlink
        rw [walkedOn_record hnone]
        exact List.mem_map_of_mem (Fields.mem_of_get? halias)
      · cases hlink
    · cases hlink
  · cases hlink

/-- There is a reference where `findSyncSchemaRef` looks for one. -/
def ChecksRef (modern : Bool) (value : FabricValue) : Prop :=
  ∃ node, Relation.ReflTransGen (fun a b => b ∈ checkedOn modern a) value node ∧
    (refAt modern node).isSome

theorem ChecksRef.of_checkedOn {next : FabricValue} (h : ChecksRef modern next)
    (hnext : next ∈ checkedOn modern value) : ChecksRef modern value := by
  obtain ⟨node, hnode, hfound⟩ := h
  exact ⟨node, .head hnext hnode, hfound⟩

/-- The search finds a reference if and only if there is one, though it stops at the first. -/
theorem findSyncSchemaRef_isSome :
    (findSyncSchemaRef modern value).isSome ↔ ChecksRef modern value := by
  rw [findSyncSchemaRef, Worklist.search_isSome_iff]
  simp only [List.mem_singleton, exists_eq_left]
  constructor
  · rintro ⟨node, hnode, ref, hfound⟩
    have hstep : ∀ a b, Worklist.Pushes (visitForRef modern) a b → b ∈ checkedOn modern a := by
      rintro a b ⟨pushed, hvisit, hb⟩
      unfold visitForRef at hvisit
      split at hvisit
      · cases hvisit
      · cases hvisit
        exact hb
    refine ⟨node, Relation.ReflTransGen.mono hstep _ _ hnode, ?_⟩
    unfold visitForRef at hfound
    split at hfound
    · simp_all
    · cases hfound
  · rintro ⟨node, hnode, hfound⟩
    obtain ⟨ref, href⟩ := Option.isSome_iff_exists.1 hfound
    induction hnode using Relation.ReflTransGen.head_induction_on with
    | refl => exact ⟨node, .refl, ref, by simp [visitForRef, href]⟩
    | @head value next hnext _ ih =>
      cases hown : refAt modern value with
      | some found => exact ⟨value, .refl, found, by simp [visitForRef, hown]⟩
      | none =>
        obtain ⟨node, hnode, hfound⟩ := ih
        exact ⟨node, .head ⟨_, by simp [visitForRef, hown], hnext⟩ hnode, hfound⟩

variable {ref : JsString}

/-- A reserved reference that the walk over schemas comes to is checked, but under `$alias`. -/
theorem aliased_or_checksRef (href : isReservedSchemaRef ref = true)
    (hkeys : WellKeyed modern value) (h : .string ref ∈ schemasOf modern value) :
    .string ref ∈ aliasedSchemas modern value ∨ ChecksRef modern value := by
  -- The induction carries the statement for the next values too: the search steps over an alias.
  suffices hboth : (.string ref ∈ schemasOf modern value →
      .string ref ∈ aliasedSchemas modern value ∨ ChecksRef modern value) ∧
      ∀ next ∈ walkedOn modern value, .string ref ∈ schemasOf modern next →
        .string ref ∈ aliasedSchemas modern next ∨ ChecksRef modern next from hboth.1 h
  clear h
  induction value using walk_induction modern with
  | step value ih =>
    have hnext : ∀ next ∈ walkedOn modern value, .string ref ∈ schemasOf modern next →
        .string ref ∈ aliasedSchemas modern next ∨ ChecksRef modern next :=
      fun next hnext => (ih next hnext (hkeys.next hnext)).1
    refine ⟨fun h => ?_, hnext⟩
    have lift : ∀ next ∈ walkedOn modern value, next ∈ checkedOn modern value →
        .string ref ∈ schemasOf modern next →
        .string ref ∈ aliasedSchemas modern value ∨ ChecksRef modern value :=
      fun next hmem hchecked hschema => (hnext next hmem hschema).imp
        (mem_aliasedSchemas_of_walkedOn hmem) (·.of_checkedOn hchecked)
    rw [schemasOf_eq, List.mem_append, Option.mem_toList] at h
    cases value using walk_cases modern with
    | link value payload hlink =>
      rcases h with h | h
      · rw [linkSchema?, hlink, Option.bind_some] at h
        exact .inr ⟨value, .refl, by simp [refAt, hlink, payloadSchemaRef, h, reservedRef?, href]⟩
      · obtain ⟨next, hmem, hschema⟩ := List.mem_flatMap.1 h
        refine lift next hmem ?_ hschema
        rw [walkedOn_link hlink] at hmem
        simpa [checkedOn, hlink] using hmem
    | array slots =>
      rcases h with h | h
      · simp [linkSchema?, linkPayload?] at h
      · obtain ⟨next, hmem, hschema⟩ := List.mem_flatMap.1 h
        obtain ⟨slot, hslot, heq⟩ := List.mem_filterMap.1 (walkedOn_array modern slots ▸ hmem)
        exact lift next hmem (List.mem_map.2 ⟨slot, hslot, by simp_all⟩) hschema
    | record fields hlink =>
      rcases h with h | h
      · simp [linkSchema?, hlink] at h
      obtain ⟨next, hmem, hschema⟩ := List.mem_flatMap.1 h
      by_cases halias : ∃ legacyAlias, Fields.get? fields "$alias" = some (.record legacyAlias)
      · obtain ⟨legacyAlias, halias⟩ := halias
        have hchecked : checkedOn modern (.record fields) = legacyAlias.map (·.2) ++
            (Fields.erase fields "$alias").map (·.2) := by simp [checkedOn, hlink, halias]
        obtain ⟨⟨key, child⟩, hmember, rfl⟩ := List.mem_map.1 (walkedOn_record hlink ▸ hmem)
        by_cases hkey : key = "$alias"
        · subst hkey
          have hnodup := (hkeys _ (mem_nodes_self _)).2
          have hchild : child = .record legacyAlias :=
            Option.some.inj ((get?_eq_some_of_nodup hnodup hmember).symm.trans halias)
          subst hchild
          cases hlink' : linkPayload? modern (.record legacyAlias) with
          | some payload =>
            refine .inl (List.mem_flatMap.2 ⟨_, mem_nodes_self _, ?_⟩)
            simpa [aliasedLink?, hlink, halias, hlink'] using hschema
          | none =>
            rw [schemasOf_eq, linkSchema?, hlink', Option.bind_none, Option.toList_none,
              List.nil_append] at hschema
            obtain ⟨inner, hinner, hschema⟩ := List.mem_flatMap.1 hschema
            have hpushed := walkedOn_record hlink' ▸ hinner
            refine ((ih _ hmem (hkeys.next hmem)).2 inner hinner hschema).imp (fun h => ?_)
              (·.of_checkedOn (hchecked ▸ List.mem_append_left _ hpushed))
            exact mem_aliasedSchemas_of_walkedOn hmem (mem_aliasedSchemas_of_walkedOn hinner h)
        · refine lift child hmem (hchecked ▸ List.mem_append_right _ ?_) hschema
          exact List.mem_map.2 ⟨_, List.mem_filter.2 ⟨hmember, by simpa using hkey⟩, rfl⟩
      · have hchecked : checkedOn modern (.record fields) = fields.map (·.2) := by
          simp only [checkedOn, hlink]
          split
          · exact absurd ⟨_, ‹_›⟩ halias
          · rfl
        exact lift next hmem (hchecked ▸ walkedOn_record hlink ▸ hmem) hschema
    | other value hlink ha hr =>
      rcases h with h | h
      · simp [linkSchema?, hlink] at h
      · simp [walkedOn_other hlink ha hr] at h

/-- The search from a value for a reserved string ends with one. -/
def FindsString (modern : Bool) (value : FabricValue) : Prop :=
  ∃ node, Worklist.Visits (visitForString modern) value node ∧
    ∃ found, visitForString modern node = .error found

theorem containsSyncSchemaRefString_iff :
    containsSyncSchemaRefString modern value = true ↔ FindsString modern value := by
  rw [containsSyncSchemaRefString, Worklist.search_isSome_iff, FindsString]
  simp

theorem FindsString.of_visits {next : FabricValue} (h : FindsString modern next)
    (hnext : Worklist.Visits (visitForString modern) value next) : FindsString modern value := by
  obtain ⟨node, hnode, hfound⟩ := h
  exact ⟨node, hnext.trans hnode, hfound⟩

theorem visits_member {fields : Members} {member : JsString × FabricValue} (h : member ∈ fields) :
    Worklist.Visits (visitForString modern) (.record fields) member.2 :=
  .single ⟨_, rfl, List.mem_map_of_mem h⟩

theorem visits_linkPayload {payload : Members} (h : linkPayload? modern value = some payload) :
    Worklist.Visits (visitForString modern) value (.record payload) := by
  unfold linkPayload? at h
  split at h
  · split at h
    · cases h
      rename_i hmodern
      exact .single ⟨_, rfl, by simp [hmodern]⟩
    · cases h
  · split at h
    · split at h
      · rename_i hpayload
        cases h
        exact (visits_member List.mem_cons_self).trans
          (visits_member (Fields.mem_of_get? hpayload))
      · cases h
    · cases h
  · cases h

/-- Every reserved reference that the walk over schemas comes to is a string of the value. -/
theorem findsString_of_mem (href : isReservedSchemaRef ref = true)
    (h : .string ref ∈ schemasOf modern value) : FindsString modern value := by
  have hself : FindsString modern (.string ref) := ⟨_, .refl, (), by simp [visitForString, href]⟩
  induction value using walk_induction modern with
  | step value ih =>
    rw [schemasOf_eq, List.mem_append, Option.mem_toList] at h
    cases value using walk_cases modern with
    | link value payload hlink =>
      rw [linkSchema?, hlink, Option.bind_some, walkedOn_link hlink] at h
      rcases h with h | h
      · exact hself.of_visits ((visits_linkPayload hlink).trans
          (visits_member (Fields.mem_of_get? h)))
      · obtain ⟨next, hmem, hschema⟩ := List.mem_flatMap.1 h
        obtain ⟨member, hmember, rfl⟩ := List.mem_map.1 hmem
        exact (ih _ (walkedOn_link hlink ▸ hmem) hschema).of_visits ((visits_linkPayload hlink).trans
          (visits_member (List.mem_filter.1 hmember).1))
    | array slots =>
      rcases h with h | h
      · simp [linkSchema?, linkPayload?] at h
      obtain ⟨next, hmem, hschema⟩ := List.mem_flatMap.1 h
      obtain ⟨slot, hslot, heq⟩ := List.mem_filterMap.1 (walkedOn_array modern slots ▸ hmem)
      exact (ih next hmem hschema).of_visits
        (.single ⟨_, rfl, List.mem_map.2 ⟨slot, hslot, by simp_all⟩⟩)
    | record fields hlink =>
      rcases h with h | h
      · simp [linkSchema?, hlink] at h
      obtain ⟨next, hmem, hschema⟩ := List.mem_flatMap.1 h
      obtain ⟨member, hmember, rfl⟩ := List.mem_map.1 (walkedOn_record hlink ▸ hmem)
      exact (ih _ hmem hschema).of_visits (visits_member hmember)
    | other value hlink ha hr =>
      rcases h with h | h
      · simp [linkSchema?, hlink] at h
      · simp [walkedOn_other hlink ha hr] at h
end
