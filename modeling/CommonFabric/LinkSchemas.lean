import CommonFabric.FieldOrder

/-!
# Links, and the schemas they carry

A link is a record whose one member `/` holds `link@1`, or, in the modern cell
representation, an instance of its own class. The walk over a value takes each link's
schema to what a callback makes of it, without looking into the schema, and goes on
through the other members of the link and of all else.
-/

def LINK_V1_TAG : JsString := "link@1"

/-- The codec tag of a `FabricLink`. -/
def FABRIC_LINK_TAG : JsString := "Link@1"

namespace CellRep

/-- `linkRefFrom`. -/
def linkRefFrom (modern : Bool) (payload : Members) : FabricValue :=
  if modern then .special FABRIC_LINK_TAG (.record payload)
  else .record [("/", .record [(LINK_V1_TAG, .record payload)])]

/-- The payload of a link, where that is a record: `isLinkRef`, then `linkRefPayload`. -/
def linkPayload? (modern : Bool) : FabricValue → Option Members
  | .special tag (.record payload) => if modern && tag = FABRIC_LINK_TAG then some payload else none
  | .record [(key, .record inner)] =>
    if !modern && key = "/" then
      match Fields.get? inner LINK_V1_TAG with
      | some (.record payload) => some payload
      | _ => none
    else none
  | _ => none

end CellRep

open CellRep

section
variable {m : Type → Type} [Monad m] (modern : Bool) (mapSchema : FabricValue → m FabricValue)

mutual
/-- The walk. A part that comes out as it went in is taken for unchanged, as the source
takes one it gets back by identity: it allocates only where it changes something. -/
def mapLinkSchemas : FabricValue → m FabricValue
  | .array slots => do
    let mapped ← mapSlots slots
    pure (.array mapped)
  | .record [(key, .record inner)] => do
    let link ← if !modern && key = "/" then mapLegacyPayload inner else pure none
    match link with
    | some (payload, mapped) =>
      pure (if mapped = payload then .record [(key, .record inner)] else linkRefFrom modern mapped)
    | none => do
      let mapped ← mapLinkSchemas (.record inner)
      pure (.record [(key, mapped)])
  | .record fields => do
    let mapped ← mapRecordChildren none fields
    pure (.record mapped)
  | .special tag (.record payload) =>
    if modern && tag = FABRIC_LINK_TAG then do
      let schema ← (Fields.get? payload "schema").mapM mapSchema
      let mapped ← mapRecordChildren schema payload
      pure (if mapped = payload then .special tag (.record payload) else linkRefFrom modern mapped)
    else pure (.special tag (.record payload))
  | value => pure value

def mapSlots : List (Option FabricValue) → m (List (Option FabricValue))
  | [] => pure []
  | none :: slots => do
    let rest ← mapSlots slots
    pure (none :: rest)
  | some item :: slots => do
    let next ← mapLinkSchemas item
    let rest ← mapSlots slots
    pure (some next :: rest)

/-- The payload that the record in a link's envelope holds, and what it is mapped to. -/
def mapLegacyPayload : Members → m (Option (Members × Members))
  | [] => pure none
  | (key, value) :: rest =>
    if key = LINK_V1_TAG then
      match value with
      | .record payload => do
        let schema ← (Fields.get? payload "schema").mapM mapSchema
        let mapped ← mapRecordChildren schema payload
        pure (some (payload, mapped))
      | _ => pure none
    else mapLegacyPayload rest

/-- The members of a record. In a link's payload, `schema` is what the member of that
name was mapped to already. -/
def mapRecordChildren (schema : Option FabricValue) : Members → m Members
  | [] => pure []
  | (key, child) :: rest => do
    let next ← match (if key = "schema" then schema else none) with
      | some schema => pure schema
      | none => mapLinkSchemas child
    let rest ← mapRecordChildren schema rest
    pure ((key, next) :: rest)
end

def mapPayloadSchemas (payload : Members) : m Members := do
  let schema ← (Fields.get? payload "schema").mapM mapSchema
  mapRecordChildren modern mapSchema schema payload

end

section
variable {m : Type → Type} [Monad m] [LawfulMonad m] {modern : Bool}
  {mapSchema : FabricValue → m FabricValue}

theorem mapLegacyPayload_eq (inner : Members) :
    mapLegacyPayload modern mapSchema inner =
      match Fields.get? inner LINK_V1_TAG with
      | some (.record payload) => do
        let mapped ← mapPayloadSchemas modern mapSchema payload
        pure (some (payload, mapped))
      | _ => pure none := by
  induction inner with
  | nil => rfl
  | cons member rest ih =>
    obtain ⟨key, value⟩ := member
    rw [Fields.get?_cons]
    by_cases hkey : key = LINK_V1_TAG
    · cases value <;> simp [mapLegacyPayload, hkey, mapPayloadSchemas]
    · rw [if_neg hkey, ← ih]
      cases value <;> simp [mapLegacyPayload, hkey]

theorem mapLinkSchemas_link {value : FabricValue} {payload : Members}
    (h : linkPayload? modern value = some payload) :
    mapLinkSchemas modern mapSchema value = (do
      let mapped ← mapPayloadSchemas modern mapSchema payload
      pure (if mapped = payload then value else linkRefFrom modern mapped)) := by
  unfold linkPayload? at h
  split at h
  · split at h
    · cases h
      rename_i htag
      simp [mapLinkSchemas, htag, mapPayloadSchemas]
    · cases h
  · split at h
    · rename_i key inner hkey
      split at h
      · rename_i payload' hpayload
        cases h
        rw [mapLinkSchemas, if_pos hkey, mapLegacyPayload_eq, hpayload]
        simp
      · cases h
    · cases h
  · cases h

theorem mapRecordChildren_none_cons (key : JsString) (child : FabricValue) (rest : Members) :
    mapRecordChildren modern mapSchema none ((key, child) :: rest) = (do
      let next ← mapLinkSchemas modern mapSchema child
      let rest ← mapRecordChildren modern mapSchema none rest
      pure ((key, next) :: rest)) := by
  simp [mapRecordChildren]

theorem mapLinkSchemas_record {fields : Members}
    (h : linkPayload? modern (.record fields) = none) :
    mapLinkSchemas modern mapSchema (.record fields) = (do
      let mapped ← mapRecordChildren modern mapSchema none fields
      pure (.record mapped)) := by
  match fields with
  | [] => simp [mapLinkSchemas]
  | a :: b :: rest => simp [mapLinkSchemas]
  | [(key, child)] =>
    cases child with
    | record inner =>
      rw [mapLinkSchemas, mapLegacyPayload_eq, mapRecordChildren_none_cons]
      simp only [linkPayload?] at h
      by_cases hkey : (!modern && decide (key = "/")) = true
      · rw [if_pos hkey] at h ⊢
        split at h
        · cases h
        · simp [mapRecordChildren]
      · rw [if_neg hkey]
        simp [mapRecordChildren]
    | _ => simp [mapLinkSchemas]

omit [LawfulMonad m] in
theorem mapLinkSchemas_other {value : FabricValue} (hlink : linkPayload? modern value = none)
    (harray : ∀ slots, value ≠ .array slots) (hrecord : ∀ fields, value ≠ .record fields) :
    mapLinkSchemas modern mapSchema value = pure value := by
  cases value with
  | array slots => exact absurd rfl (harray slots)
  | record fields => exact absurd rfl (hrecord fields)
  | special tag state =>
    cases state with
    | record payload =>
      rw [linkPayload?] at hlink
      rw [mapLinkSchemas]
      split at hlink
      · cases hlink
      · rename_i htag
        rw [if_neg htag]
    | _ => rfl
  | _ => rfl

end

/-- The values the walk goes on to from a value. -/
def walkedOn (modern : Bool) (value : FabricValue) : List FabricValue :=
  match linkPayload? modern value with
  | some payload => (Fields.erase payload "schema").map (·.2)
  | none => match value with
    | .array slots => slots.filterMap id
    | .record fields => fields.map (·.2)
    | _ => []

variable {value : FabricValue}

theorem walkedOn_link {modern : Bool} {payload : Members}
    (h : linkPayload? modern value = some payload) :
    walkedOn modern value = (Fields.erase payload "schema").map (·.2) := by
  simp [walkedOn, h]

theorem walkedOn_array (modern : Bool) (slots : List (Option FabricValue)) :
    walkedOn modern (.array slots) = slots.filterMap id := rfl

theorem walkedOn_record {modern : Bool} {fields : Members}
    (h : linkPayload? modern (.record fields) = none) :
    walkedOn modern (.record fields) = fields.map (·.2) := by
  simp [walkedOn, h]

theorem walkedOn_other {modern : Bool}
    (hlink : linkPayload? modern value = none) (harray : ∀ slots, value ≠ .array slots)
    (hrecord : ∀ fields, value ≠ .record fields) : walkedOn modern value = [] := by
  cases value with
  | array slots => exact absurd rfl (harray slots)
  | record fields => exact absurd rfl (hrecord fields)
  | _ => simp [walkedOn, hlink]

/-- The schema a link carries. -/
def linkSchema? (modern : Bool) (value : FabricValue) : Option FabricValue :=
  (linkPayload? modern value).bind (Fields.get? · "schema")

theorem sizeOf_slot_lt {slots : List (Option FabricValue)}
    (h : some value ∈ slots) : sizeOf value < sizeOf slots := by
  have := List.sizeOf_lt_of_mem h
  simp only [Option.some.sizeOf_spec] at this
  omega

theorem sizeOf_member_lt {fields : Members} {member : JsString × FabricValue}
    (h : member ∈ fields) : sizeOf member.2 < sizeOf fields := by
  have := List.sizeOf_lt_of_mem h
  obtain ⟨key, value⟩ := member
  simp only [Prod.mk.sizeOf_spec] at this
  show sizeOf value < _
  omega

theorem sizeOf_linkPayload_lt {modern : Bool} {payload : Members}
    (h : linkPayload? modern value = some payload) : sizeOf payload < sizeOf value := by
  unfold linkPayload? at h
  split at h
  · split at h
    · cases h
      simp
      omega
    · cases h
  · split at h
    · split at h
      · rename_i hpayload
        cases h
        have := sizeOf_member_lt (Fields.mem_of_get? hpayload)
        simp at this ⊢
        omega
      · cases h
    · cases h
  · cases h

theorem sizeOf_walkedOn_lt {modern : Bool} {next : FabricValue}
    (h : next ∈ walkedOn modern value) : sizeOf next < sizeOf value := by
  unfold walkedOn at h
  split at h
  · rename_i payload hpayload
    obtain ⟨member, hmember, rfl⟩ := List.mem_map.1 h
    have := sizeOf_member_lt (List.mem_filter.1 hmember).1
    have := sizeOf_linkPayload_lt hpayload
    omega
  · split at h
    · have := sizeOf_slot_lt (by simpa using h)
      simp
      omega
    · obtain ⟨member, hmember, rfl⟩ := List.mem_map.1 h
      have := sizeOf_member_lt hmember
      simp
      omega
    · cases h

/-- What the walk visits, in order. -/
def nodes (modern : Bool) (value : FabricValue) : List FabricValue :=
  value :: (walkedOn modern value).attach.flatMap fun next => nodes modern next.1
termination_by sizeOf value
decreasing_by exact sizeOf_walkedOn_lt next.2

/-- The schemas at the schema positions of a value, in the order of the walk. -/
def schemasOf (modern : Bool) (value : FabricValue) : List FabricValue :=
  (nodes modern value).filterMap (linkSchema? modern)

theorem nodes_eq (modern : Bool) (value : FabricValue) :
    nodes modern value = value :: (walkedOn modern value).flatMap (nodes modern) := by
  rw [nodes]
  congr 1
  exact (List.flatMap_subtype fun _ _ => rfl).trans (by rw [List.unattach_attach])

theorem schemasOf_eq (modern : Bool) (value : FabricValue) :
    schemasOf modern value = (linkSchema? modern value).toList ++
      (walkedOn modern value).flatMap (schemasOf modern) := by
  rw [schemasOf, nodes_eq, List.filterMap_cons, List.filterMap_flatMap]
  cases linkSchema? modern value <;> rfl

/-- What a value is to the walk. -/
theorem walk_cases (modern : Bool) {P : FabricValue → Prop}
    (link : ∀ value payload, linkPayload? modern value = some payload → P value)
    (array : ∀ slots, P (.array slots))
    (record : ∀ fields, linkPayload? modern (.record fields) = none → P (.record fields))
    (other : ∀ value, linkPayload? modern value = none → (∀ slots, value ≠ .array slots) →
      (∀ fields, value ≠ .record fields) → P value) (value : FabricValue) : P value := by
  cases hlink : linkPayload? modern value with
  | some payload => exact link value payload hlink
  | none =>
    by_cases harray : ∃ slots, value = .array slots
    · obtain ⟨slots, rfl⟩ := harray
      exact array slots
    by_cases hrecord : ∃ fields, value = .record fields
    · obtain ⟨fields, rfl⟩ := hrecord
      exact record fields hlink
    · exact other value hlink (not_exists.1 harray) (not_exists.1 hrecord)

theorem walk_induction (modern : Bool) {P : FabricValue → Prop}
    (step : ∀ value, (∀ next ∈ walkedOn modern value, P next) → P value) (value : FabricValue) :
    P value := by
  induction hsize : sizeOf value using Nat.strongRecOn generalizing value with
  | ind size ih =>
    subst hsize
    exact step value fun next hnext => ih _ (sizeOf_walkedOn_lt hnext) next rfl

/-- A value with each schema `s` of its links replaced by `g s`. -/
def mapped (modern : Bool) (g : FabricValue → FabricValue) (value : FabricValue) : FabricValue :=
  Id.run (mapLinkSchemas modern (fun schema => pure (g schema)) value)

/-- A member of a record, where a payload's `schema` is given. -/
def mappedMember (modern : Bool) (g : FabricValue → FabricValue) (schema : Option FabricValue)
    (member : JsString × FabricValue) : JsString × FabricValue :=
  (member.1, ((if member.1 = "schema" then schema else none).getD (mapped modern g member.2)))

theorem mappedMember_none (modern : Bool) (g : FabricValue → FabricValue) :
    mappedMember modern g none = fun member => (member.1, mapped modern g member.2) := by
  funext member
  simp [mappedMember]

def mappedPayload (modern : Bool) (g : FabricValue → FabricValue) (payload : Members) : Members :=
  payload.map (mappedMember modern g ((Fields.get? payload "schema").map g))

section
variable {m : Type → Type} [Monad m] [LawfulMonad m] {modern : Bool}
  {mapSchema : FabricValue → m FabricValue} {act : FabricValue → m Unit}
  {g : FabricValue → FabricValue}

/-- What the walk does at a value: the callback's effects on its schemas in order, and then
the pure map. -/
def Walks (modern : Bool) (mapSchema : FabricValue → m FabricValue) (act : FabricValue → m Unit)
    (g : FabricValue → FabricValue) (value : FabricValue) : Prop :=
  mapLinkSchemas modern mapSchema value = (do
    (schemasOf modern value).forM act
    pure (mapped modern g value))

theorem mapSlots_eq {slots : List (Option FabricValue)}
    (h : ∀ item ∈ slots.filterMap id, Walks modern mapSchema act g item) :
    mapSlots modern mapSchema slots = (do
      ((slots.filterMap id).flatMap (schemasOf modern)).forM act
      pure (slots.map (Option.map (mapped modern g)))) := by
  induction slots with
  | nil => simp [mapSlots]
  | cons slot slots ih =>
    cases slot with
    | none =>
      rw [mapSlots, ih fun item hitem => h item (by simpa using hitem)]
      simp
    | some item =>
      have hitem : Walks modern mapSchema act g item := h item (by simp)
      rw [mapSlots, hitem, ih fun item hitem => h item (List.mem_cons_of_mem _ hitem)]
      simp [List.forM_append]

theorem mapRecordChildren_eq {schema : Option FabricValue} {fields : Members}
    (h : ∀ member ∈ fields, (schema.isSome → member.1 ≠ "schema") →
      Walks modern mapSchema act g member.2) :
    mapRecordChildren modern mapSchema schema fields = (do
      (((if schema.isSome then Fields.erase fields "schema" else fields).map (·.2)).flatMap
        (schemasOf modern)).forM act
      pure (fields.map (mappedMember modern g schema))) := by
  induction fields with
  | nil => cases schema <;> simp [mapRecordChildren, Fields.erase]
  | cons member rest ih =>
    obtain ⟨key, child⟩ := member
    have ih := ih fun member hmember => h member (List.mem_cons_of_mem _ hmember)
    cases schema with
    | none =>
      have hchild : Walks modern mapSchema act g child := h (key, child) List.mem_cons_self (by simp)
      rw [mapRecordChildren_none_cons, hchild, ih]
      simp [mappedMember, List.forM_append]
    | some schema =>
      by_cases hkey : key = "schema"
      · rw [mapRecordChildren, ih]
        simp [hkey, mappedMember, Fields.erase]
      · have hchild : Walks modern mapSchema act g child :=
          h (key, child) List.mem_cons_self fun _ => hkey
        rw [mapRecordChildren, if_neg hkey, hchild, ih]
        simp [hkey, mappedMember, Fields.erase, List.forM_append]
end

section
variable {modern : Bool} {g : FabricValue → FabricValue}

theorem forM_pure {m : Type → Type} [Monad m] [LawfulMonad m] (schemas : List FabricValue) :
    schemas.forM (fun _ => (pure () : m Unit)) = pure () := by
  induction schemas with
  | nil => rfl
  | cons schema schemas ih => simpa [List.forM] using ih

theorem walks_pure (value : FabricValue) :
    Walks (m := Id) modern (fun schema => pure (g schema)) (fun _ => pure ()) g value := by
  rw [Walks, forM_pure, pure_bind]
  rfl

theorem mapped_array (slots : List (Option FabricValue)) :
    mapped modern g (.array slots) = .array (slots.map (Option.map (mapped modern g))) := by
  rw [mapped, mapLinkSchemas, mapSlots_eq fun item _ => walks_pure item, forM_pure]
  rfl

theorem mapped_record {fields : Members} (h : linkPayload? modern (.record fields) = none) :
    mapped modern g (.record fields) =
      .record (fields.map fun member => (member.1, mapped modern g member.2)) := by
  rw [mapped, mapLinkSchemas_record h, mapRecordChildren_eq fun member _ _ => walks_pure member.2,
    forM_pure]
  rw [mappedMember_none]
  rfl

theorem mapped_link {value : FabricValue} {payload : Members}
    (h : linkPayload? modern value = some payload) :
    mapped modern g value =
      if mappedPayload modern g payload = payload then value
      else linkRefFrom modern (mappedPayload modern g payload) := by
  rw [mapped, mapLinkSchemas_link h, mapPayloadSchemas]
  cases hschema : Fields.get? payload "schema" with
  | none =>
    rw [Option.mapM_none, pure_bind, mapRecordChildren_eq fun member _ _ => walks_pure member.2,
      forM_pure, mappedPayload, hschema]
    rfl
  | some schema =>
    have hchildren : Id.run (mapRecordChildren modern (fun schema => pure (g schema))
        (some (g schema)) payload) = payload.map (mappedMember modern g (some (g schema))) := by
      rw [mapRecordChildren_eq fun member _ _ => walks_pure member.2, forM_pure]
      rfl
    rw [mappedPayload, hschema]
    show (if Id.run (mapRecordChildren modern _ (some (g schema)) payload) = payload then value
      else linkRefFrom modern (Id.run (mapRecordChildren modern _ (some (g schema)) payload))) = _
    rw [hchildren]
    rfl

theorem mapped_other {value : FabricValue} (hlink : linkPayload? modern value = none)
    (harray : ∀ slots, value ≠ .array slots) (hrecord : ∀ fields, value ≠ .record fields) :
    mapped modern g value = value := by
  rw [mapped, mapLinkSchemas_other hlink harray hrecord]
  rfl

end

theorem erase_of_get?_none {fields : Members} {key : JsString}
    (h : Fields.get? fields key = none) : Fields.erase fields key = fields := by
  refine List.filter_eq_self.2 fun member hmember => ?_
  have := Fields.get?_eq_none_iff.1 h
  grind

section
variable {m : Type → Type} [Monad m] [LawfulMonad m] {mapSchema : FabricValue → m FabricValue}
  {act : FabricValue → m Unit}

theorem mapPayloadSchemas_eq (hf : ∀ schema, mapSchema schema = (do act schema; pure (g schema)))
    {payload : Members} (h : ∀ member ∈ payload, member.1 ≠ "schema" →
      Walks modern mapSchema act g member.2) :
    mapPayloadSchemas modern mapSchema payload = (do
      ((Fields.get? payload "schema").toList ++
        ((Fields.erase payload "schema").map (·.2)).flatMap (schemasOf modern)).forM act
      pure (mappedPayload modern g payload)) := by
  rw [mapPayloadSchemas, mappedPayload]
  cases hschema : Fields.get? payload "schema" with
  | none =>
    have hkeys := Fields.get?_eq_none_iff.1 hschema
    have hall : ∀ member ∈ payload, ((none : Option FabricValue).isSome → member.1 ≠ "schema") →
        Walks modern mapSchema act g member.2 := fun member hmember _ =>
      h member hmember fun hkey => hkeys (hkey ▸ List.mem_map_of_mem hmember)
    rw [Option.mapM_none, pure_bind, mapRecordChildren_eq hall, erase_of_get?_none hschema]
    simp
  | some schema =>
    have hall : ∀ member ∈ payload, ((some (g schema)).isSome → member.1 ≠ "schema") →
        Walks modern mapSchema act g member.2 := fun member hmember hkey =>
      h member hmember (hkey rfl)
    rw [Option.mapM_some, hf]
    simp [mapRecordChildren_eq hall]

/-- The walk, for a callback that does `act` and answers `g`. -/
theorem mapLinkSchemas_eq (hf : ∀ schema, mapSchema schema = (do act schema; pure (g schema)))
    (value : FabricValue) : Walks modern mapSchema act g value := by
  induction value using walk_induction modern with
  | step value ih =>
    rw [Walks, schemasOf_eq, linkSchema?]
    cases value using walk_cases modern with
    | link value payload hlink =>
      rw [walkedOn_link hlink] at ih ⊢
      have hmembers : ∀ member ∈ payload, member.1 ≠ "schema" →
          Walks modern mapSchema act g member.2 := fun member hmember hkey =>
        ih member.2 (List.mem_map_of_mem (List.mem_filter.2 ⟨hmember, by simpa using hkey⟩))
      rw [mapLinkSchemas_link hlink, mapped_link hlink, mapPayloadSchemas_eq hf hmembers, hlink]
      simp
    | array slots =>
      rw [walkedOn_array] at ih ⊢
      rw [mapLinkSchemas, mapSlots_eq ih, mapped_array]
      simp [linkPayload?]
    | record fields hlink =>
      rw [walkedOn_record hlink] at ih ⊢
      have hall : ∀ member ∈ fields, ((none : Option FabricValue).isSome → member.1 ≠ "schema") →
          Walks modern mapSchema act g member.2 := fun member hmember _ =>
        ih member.2 (List.mem_map_of_mem hmember)
      rw [mapLinkSchemas_record hlink, mapRecordChildren_eq hall, mapped_record hlink,
        mappedMember_none, hlink]
      simp
    | other value hlink ha hr =>
      rw [mapLinkSchemas_other hlink ha hr, walkedOn_other hlink ha hr, mapped_other hlink ha hr,
        hlink]
      simp
end

/-- The same for a list, each element of which is walked. -/
theorem mapM_walks {m : Type → Type} [Monad m] [LawfulMonad m] {α β : Type} {act : FabricValue → m Unit}
    {walk : α → m β} {schemas : α → List FabricValue} {answer : α → β} {xs : List α}
    (h : ∀ x, walk x = (do (schemas x).forM act; pure (answer x))) :
    xs.mapM walk = (do (xs.flatMap schemas).forM act; pure (xs.map answer)) := by
  induction xs with
  | nil => simp
  | cons x xs ih =>
    rw [List.mapM_cons, h, ih]
    simp [List.forM_append]

section
variable {modern : Bool} {f g : FabricValue → FabricValue}

@[simp] theorem linkPayload?_linkRefFrom (payload : Members) :
    linkPayload? modern (linkRefFrom modern payload) = some payload := by
  cases modern <;> simp [linkRefFrom, linkPayload?, Fields.get?_cons]

variable {fields payload : Members} {value : FabricValue}

theorem get?_map {h : JsString → FabricValue → FabricValue} (key : JsString) :
    Fields.get? (fields.map fun member => (member.1, h member.1 member.2)) key =
      (Fields.get? fields key).map (h key) := by
  induction fields with
  | nil => rfl
  | cons member rest ih =>
    obtain ⟨k, child⟩ := member
    by_cases hk : k = key <;> simp [Fields.get?_cons, hk, ih]

/-- Only a record is mapped to a record. -/
theorem record_of_mapped
    (h : mapped false g value = .record fields) : ∃ fields', value = .record fields' := by
  by_cases hrecord : ∃ fields', value = .record fields'
  · exact hrecord
  by_cases harray : ∃ slots, value = .array slots
  · obtain ⟨slots, rfl⟩ := harray
    rw [mapped_array] at h
    cases h
  have hlink : linkPayload? false value = none := by
    cases value with
    | record fields => exact absurd ⟨_, rfl⟩ hrecord
    | special tag state => cases state <;> rfl
    | _ => rfl
  rw [mapped_other hlink (not_exists.1 harray) (not_exists.1 hrecord)] at h
  exact ⟨_, h⟩

/-- What the record under `/` holds as a link stays what it is. -/
theorem tagged_mapped {inner inner' : Members}
    (hinner : mapped false g (.record inner) = .record inner')
    (h : Fields.get? inner' LINK_V1_TAG = some (.record payload)) :
    ∃ payload', Fields.get? inner LINK_V1_TAG = some (.record payload') := by
  have hslash : ("/" : JsString) ≠ LINK_V1_TAG := by decide
  cases hlink : linkPayload? false (.record inner) with
  | none =>
    rw [mapped_record hlink] at hinner
    cases hinner
    rw [get?_map (h := fun _ child => mapped false g child), Option.map_eq_some_iff] at h
    obtain ⟨child, hchild, hrecord⟩ := h
    obtain ⟨payload', rfl⟩ := record_of_mapped hrecord
    exact ⟨payload', hchild⟩
  | some payload' =>
    rw [mapped_link hlink] at hinner
    split at hinner
    · cases hinner
      exact ⟨payload, h⟩
    · cases hinner
      simp [Fields.get?_cons, hslash] at h

/-- A record is a link as the envelope around a payload, and only in the legacy form. -/
theorem linkPayload?_record :
    linkPayload? modern (.record fields) = some payload ↔
      modern = false ∧ ∃ inner, fields = ([("/", .record inner)] : Members) ∧
        Fields.get? inner LINK_V1_TAG = some (.record payload) := by
  constructor
  · intro h
    unfold linkPayload? at h
    split at h
    · rename_i heq
      cases heq
    · rename_i key inner heq
      cases heq
      split at h
      · rename_i hkey
        split at h
        · cases h
          simp only [Bool.and_eq_true, Bool.not_eq_true', decide_eq_true_eq] at hkey
          exact ⟨hkey.1, inner, by rw [hkey.2], ‹_›⟩
        · cases h
      · cases h
    · cases h
  · rintro ⟨rfl, inner, rfl, hpayload⟩
    simp [linkPayload?, hpayload]

/-- A record is mapped to a record. -/
theorem mapped_of_record (fields : Members) :
    ∃ fields', mapped modern g (.record fields) = .record fields' := by
  cases hlink : linkPayload? modern (.record fields) with
  | none => exact ⟨_, mapped_record hlink⟩
  | some payload =>
    obtain ⟨rfl, -⟩ := linkPayload?_record.1 hlink
    rw [mapped_link hlink]
    split
    · exact ⟨_, rfl⟩
    · exact ⟨_, rfl⟩

theorem linkPayload?_mapped_none (h : linkPayload? modern (.record fields) = none) :
    linkPayload? modern (mapped modern g (.record fields)) = none := by
  rw [mapped_record h, Option.eq_none_iff_forall_not_mem]
  intro payload hpayload
  obtain ⟨rfl, inner, hfields, htag⟩ := linkPayload?_record.1 hpayload
  rw [List.map_eq_singleton_iff] at hfields
  obtain ⟨⟨key, child⟩, rfl, heq⟩ := hfields
  obtain ⟨rfl, hchild⟩ := Prod.mk.inj heq
  obtain ⟨inner', rfl⟩ := record_of_mapped hchild
  obtain ⟨payload', htag'⟩ := tagged_mapped hchild htag
  rw [linkPayload?_record.2 ⟨rfl, inner', rfl, htag'⟩] at h
  cases h

theorem linkPayload?_mapped (value : FabricValue) :
    linkPayload? modern (mapped modern g value) =
      (linkPayload? modern value).map (mappedPayload modern g) := by
  cases value using walk_cases modern with
  | link value payload hlink =>
    rw [mapped_link hlink, hlink, Option.map_some]
    split
    · rename_i hsame
      rw [hlink, hsame]
    · exact linkPayload?_linkRefFrom _
  | array slots =>
    rw [mapped_array]
    rfl
  | record fields hlink => rw [hlink, linkPayload?_mapped_none hlink, Option.map_none]
  | other value hlink ha hr => rw [mapped_other hlink ha hr, hlink, Option.map_none]

theorem get?_mappedPayload (payload : Members) (key : JsString) :
    Fields.get? (mappedPayload modern g payload) key = (Fields.get? payload key).map fun child =>
      (if key = "schema" then (Fields.get? payload "schema").map g else none).getD
        (mapped modern g child) :=
  get?_map (h := fun k child => (if k = "schema" then (Fields.get? payload "schema").map g
    else none).getD (mapped modern g child)) key

theorem linkSchema?_mapped (value : FabricValue) :
    linkSchema? modern (mapped modern g value) = (linkSchema? modern value).map g := by
  rw [linkSchema?, linkSchema?, linkPayload?_mapped]
  cases hlink : linkPayload? modern value with
  | none => rfl
  | some payload =>
    rw [Option.map_some, Option.bind_some, Option.bind_some, get?_mappedPayload]
    cases Fields.get? payload "schema" <;> simp

theorem erase_mappedPayload (payload : Members) :
    Fields.erase (mappedPayload modern g payload) "schema" =
      (Fields.erase payload "schema").map fun member => (member.1, mapped modern g member.2) := by
  rw [Fields.erase, mappedPayload, List.filter_map, Fields.erase]
  refine List.map_congr_left fun member hmember => ?_
  have hkey : member.1 ≠ "schema" := of_decide_eq_true (List.mem_filter.1 hmember).2
  rw [mappedMember, if_neg hkey, Option.getD_none]

theorem walkedOn_mapped (value : FabricValue) :
    walkedOn modern (mapped modern g value) = (walkedOn modern value).map (mapped modern g) := by
  have hmapped : linkPayload? modern (mapped modern g value) =
    (linkPayload? modern value).map (mappedPayload modern g) := linkPayload?_mapped value
  cases value using walk_cases modern with
  | link value payload hlink =>
    rw [hlink, Option.map_some] at hmapped
    rw [walkedOn_link hmapped, walkedOn_link hlink, erase_mappedPayload, List.map_map, List.map_map]
    rfl
  | array slots =>
    rw [mapped_array, walkedOn_array, walkedOn_array, List.filterMap_map, List.map_filterMap]
    rfl
  | record fields hlink =>
    rw [hlink, Option.map_none, mapped_record hlink] at hmapped
    rw [mapped_record hlink, walkedOn_record hmapped, walkedOn_record hlink, List.map_map,
      List.map_map]
    rfl
  | other value hlink ha hr =>
    rw [mapped_other hlink ha hr, walkedOn_other hlink ha hr]
    rfl

theorem schemasOf_mapped (value : FabricValue) :
    schemasOf modern (mapped modern g value) = (schemasOf modern value).map g := by
  induction value using walk_induction modern with
  | step value ih =>
    rw [schemasOf_eq, schemasOf_eq, linkSchema?_mapped, walkedOn_mapped, List.map_append,
      List.flatMap_map, List.map_flatMap, Option.toList_map]
    congr 1
    exact List.flatMap_congr ih

theorem mem_schemasOf_of_walkedOn {next schema : FabricValue}
    (hnext : next ∈ walkedOn modern value) (h : schema ∈ schemasOf modern next) :
    schema ∈ schemasOf modern value := by
  rw [schemasOf_eq]
  exact List.mem_append_right _ (List.mem_flatMap.2 ⟨next, hnext, h⟩)

theorem mem_schemasOf_of_link {schema : FabricValue}
    (hlink : linkPayload? modern value = some payload)
    (h : Fields.get? payload "schema" = some schema) : schema ∈ schemasOf modern value := by
  rw [schemasOf_eq, linkSchema?, hlink, Option.bind_some, h]
  exact List.mem_append_left _ List.mem_cons_self

/-- A value is not itself with one of its schemas replaced. -/
theorem mapped_ne {schema : FabricValue} (h : schema ∈ schemasOf modern value)
    (hg : g schema ≠ schema) : mapped modern g value ≠ value := by
  intro hsame
  have hmap : schemasOf modern (mapped modern g value) = _ := schemasOf_mapped value
  rw [hsame] at hmap
  exact hg (List.map_inj_left.1 (hmap.symm.trans (List.map_id _).symm) schema h)

def recordKeys : FabricValue → List JsString
  | .record fields => fields.map (·.1)
  | _ => []

/-- No record the walk meets, and no payload, has two members of one key. -/
def WellKeyed (modern : Bool) (value : FabricValue) : Prop :=
  ∀ node ∈ nodes modern value,
    (∀ payload, linkPayload? modern node = some payload → (payload.map (·.1)).Nodup) ∧
    (recordKeys node).Nodup

instance (modern : Bool) (value : FabricValue) : Decidable (WellKeyed modern value) :=
  decidable_of_iff (∀ node ∈ nodes modern value,
      (∀ payload ∈ linkPayload? modern node, (payload.map (·.1)).Nodup) ∧
      (recordKeys node).Nodup)
    Iff.rfl

theorem mem_nodes_self (value : FabricValue) : value ∈ nodes modern value := by
  rw [nodes_eq]
  exact List.mem_cons_self

theorem mem_nodes_of_walkedOn {next node : FabricValue}
    (hnext : next ∈ walkedOn modern value) (h : node ∈ nodes modern next) :
    node ∈ nodes modern value := by
  rw [nodes_eq]
  exact List.mem_cons_of_mem _ (List.mem_flatMap.2 ⟨next, hnext, h⟩)

theorem mem_schemasOf_of_nodes {node schema : FabricValue} (hnode : node ∈ nodes modern value)
    (h : schema ∈ schemasOf modern node) : schema ∈ schemasOf modern value := by
  induction value using walk_induction modern with
  | step value ih =>
    rw [nodes_eq] at hnode
    rcases List.mem_cons.1 hnode with rfl | hnode
    · exact h
    · obtain ⟨next, hnext, hnode⟩ := List.mem_flatMap.1 hnode
      exact mem_schemasOf_of_walkedOn hnext (ih next hnext hnode)

theorem WellKeyed.next {next : FabricValue} (h : WellKeyed modern value)
    (hnext : next ∈ walkedOn modern value) : WellKeyed modern next :=
  fun node hnode => h node (mem_nodes_of_walkedOn hnext hnode)

theorem get?_eq_some_of_nodup (h : (fields.map (·.1)).Nodup) {key : JsString}
    {child : FabricValue} (hmem : (key, child) ∈ fields) : Fields.get? fields key = some child := by
  induction fields with
  | nil => cases hmem
  | cons member rest ih =>
    obtain ⟨k, c⟩ := member
    rw [List.map_cons, List.nodup_cons] at h
    rw [Fields.get?_cons]
    rcases List.mem_cons.1 hmem with heq | hmem
    · cases heq
      rw [if_pos rfl]
    · have hne : k ≠ key := fun heq => h.1 (List.mem_map.2 ⟨_, hmem, heq.symm⟩)
      rw [if_neg hne, ih h.2 hmem]

/-- A payload whose schemas are what they were is as it was. -/
theorem mappedPayload_eq_self (hkeys : (payload.map (·.1)).Nodup)
    (hschema : ∀ schema, Fields.get? payload "schema" = some schema → f schema = schema)
    (h : ∀ next ∈ (Fields.erase payload "schema").map (·.2), mapped modern f next = next) :
    mappedPayload modern f payload = payload := by
  rw [mappedPayload]
  refine (List.map_congr_left fun member hmember => ?_).trans (List.map_id _)
  obtain ⟨key, child⟩ := member
  by_cases hkey : key = "schema"
  · have hget := get?_eq_some_of_nodup hkeys hmember
    subst hkey
    simp [mappedMember, hget, hschema child hget]
  · have hchild : mapped modern f child = child := h child
      (List.mem_map.2 ⟨_, List.mem_filter.2 ⟨hmember, by simpa using hkey⟩, rfl⟩)
    simp [mappedMember, hkey, hchild]

theorem mapped_eq_self (hkeys : WellKeyed modern value)
    (h : ∀ schema ∈ schemasOf modern value, g schema = schema) : mapped modern g value = value := by
  induction value using walk_induction modern with
  | step value ih =>
    have hnext : ∀ next ∈ walkedOn modern value, mapped modern g next = next := fun next hnext =>
      ih next hnext (hkeys.next hnext) fun schema hschema =>
        h schema (mem_schemasOf_of_walkedOn hnext hschema)
    cases value using walk_cases modern with
    | link value payload hlink =>
      rw [walkedOn_link hlink] at hnext
      have hown : ∀ schema, Fields.get? payload "schema" = some schema → g schema = schema :=
        fun schema hschema => h schema (mem_schemasOf_of_link hlink hschema)
      have hnodup := (hkeys value (mem_nodes_self value)).1 payload hlink
      rw [mapped_link hlink, if_pos (mappedPayload_eq_self hnodup hown hnext)]
    | array slots =>
      rw [mapped_array]
      refine congrArg _ ((List.map_congr_left fun slot hslot => ?_).trans (List.map_id _))
      cases slot with
      | none => rfl
      | some item => exact congrArg some (hnext item (List.mem_filterMap.2 ⟨_, hslot, rfl⟩))
    | record fields hlink =>
      rw [walkedOn_record hlink] at hnext
      rw [mapped_record hlink]
      refine congrArg _ ((List.map_congr_left fun member hmember => ?_).trans (List.map_id _))
      exact Prod.ext rfl (hnext member.2 (List.mem_map_of_mem hmember))
    | other value hlink ha hr => exact mapped_other hlink ha hr

/-- Each link that the walk comes to, with a schema in it that changes, is as `linkRefFrom`
makes it: the record in a legacy envelope holds nothing beside the payload. -/
def RebuildsLinks (modern : Bool) (changes : FabricValue → Prop) (value : FabricValue) : Prop :=
  ∀ node ∈ nodes modern value, ∀ payload, linkPayload? modern node = some payload →
    (∃ schema ∈ schemasOf modern node, changes schema) → node = linkRefFrom modern payload

instance (modern : Bool) (changes : FabricValue → Prop) [DecidablePred changes]
    (value : FabricValue) : Decidable (RebuildsLinks modern changes value) :=
  decidable_of_iff (∀ node ∈ nodes modern value, ∀ payload ∈ linkPayload? modern node,
      (∃ schema ∈ schemasOf modern node, changes schema) → node = linkRefFrom modern payload)
    Iff.rfl

theorem RebuildsLinks.next {changes : FabricValue → Prop} {next : FabricValue}
    (h : RebuildsLinks modern changes value) (hnext : next ∈ walkedOn modern value) :
    RebuildsLinks modern changes next :=
  fun node hnode => h node (mem_nodes_of_walkedOn hnext hnode)

theorem mappedPayload_mappedPayload (hkeys : (payload.map (·.1)).Nodup)
    (hschema : ∀ schema, Fields.get? payload "schema" = some schema → g (f schema) = schema)
    (h : ∀ next ∈ (Fields.erase payload "schema").map (·.2),
      mapped modern g (mapped modern f next) = next) :
    mappedPayload modern g (mappedPayload modern f payload) = payload := by
  rw [mappedPayload, get?_mappedPayload, mappedPayload, List.map_map]
  refine (List.map_congr_left fun member hmember => ?_).trans (List.map_id _)
  obtain ⟨key, child⟩ := member
  by_cases hkey : key = "schema"
  · have hget := get?_eq_some_of_nodup hkeys hmember
    subst hkey
    simp [mappedMember, hget, hschema child hget]
  · have hchild : mapped modern g (mapped modern f child) = child := h child
      (List.mem_map.2 ⟨_, List.mem_filter.2 ⟨hmember, by simpa using hkey⟩, rfl⟩)
    simp [mappedMember, hkey, hchild]

/-- What `g` takes back of each schema, the walk takes back of the value, where links are
rebuilt as they were. -/
theorem mapped_mapped (hkeys : WellKeyed modern value)
    (hback : ∀ schema ∈ schemasOf modern value, g (f schema) = schema)
    (hlinks : RebuildsLinks modern (fun schema => f schema ≠ schema) value) :
    mapped modern g (mapped modern f value) = value := by
  induction value using walk_induction modern with
  | step value ih =>
    have hnext : ∀ next ∈ walkedOn modern value, mapped modern g (mapped modern f next) = next :=
      fun next hnext => ih next hnext (hkeys.next hnext)
        (fun schema hschema => hback schema (mem_schemasOf_of_walkedOn hnext hschema))
        (hlinks.next hnext)
    have hlink' : linkPayload? modern (mapped modern f value) =
      (linkPayload? modern value).map (mappedPayload modern f) := linkPayload?_mapped value
    cases value using walk_cases modern with
    | link value payload hlink =>
      rw [walkedOn_link hlink] at hnext
      have hown : ∀ schema, Fields.get? payload "schema" = some schema → g (f schema) = schema :=
        fun schema hschema => hback schema (mem_schemasOf_of_link hlink hschema)
      have hnodup := (hkeys value (mem_nodes_self value)).1 payload hlink
      rw [hlink, Option.map_some] at hlink'
      rw [mapped_link hlink', mappedPayload_mappedPayload hnodup hown hnext]
      by_cases hchanged : ∃ schema ∈ schemasOf modern value, f schema ≠ schema
      · have hvalue := hlinks value (mem_nodes_self value) payload hlink hchanged
        split
        · rename_i hsame
          rw [mapped_link hlink, if_pos hsame.symm]
        · exact hvalue.symm
      · have hsame : mapped modern f value = value := mapped_eq_self hkeys fun schema hschema =>
          by_contra fun hne => hchanged ⟨schema, hschema, hne⟩
        rw [hsame, hlink] at hlink'
        rw [if_pos (Option.some.inj hlink'), hsame]
    | array slots =>
      rw [mapped_array, mapped_array, List.map_map]
      refine congrArg _ ((List.map_congr_left fun slot hslot => ?_).trans (List.map_id _))
      cases slot with
      | none => rfl
      | some item => exact congrArg some (hnext item (List.mem_filterMap.2 ⟨_, hslot, rfl⟩))
    | record fields hlink =>
      rw [walkedOn_record hlink] at hnext
      rw [hlink, mapped_record hlink, Option.map_none] at hlink'
      rw [mapped_record hlink, mapped_record hlink', List.map_map]
      refine congrArg _ ((List.map_congr_left fun member hmember => ?_).trans (List.map_id _))
      exact Prod.ext rfl (hnext member.2 (List.mem_map_of_mem hmember))
    | other value hlink ha hr => rw [mapped_other hlink ha hr, mapped_other hlink ha hr]

/-- A link whose payload the walk changes is never taken back to what it was where there was
more to it than `linkRefFrom` makes. -/
theorem rebuildsLinks_of_mapped_mapped (h : mapped modern g (mapped modern f value) = value) :
    RebuildsLinks modern (fun schema => f schema ≠ schema) value := by
  induction value using walk_induction modern with
  | step value ih =>
    intro node hnode payload hlink hchanged
    rw [nodes_eq] at hnode
    rcases List.mem_cons.1 hnode with rfl | hnode
    · obtain ⟨schema, hschema, hne⟩ := hchanged
      have hpayload : mappedPayload modern f payload ≠ payload := by
        intro hsame
        exact mapped_ne hschema hne (by rw [mapped_link hlink, if_pos hsame])
      rw [mapped_link hlink, if_neg hpayload, mapped_link (linkPayload?_linkRefFrom _)] at h
      split at h
      all_goals
        rw [← h, linkPayload?_linkRefFrom] at hlink
        rw [← Option.some.inj hlink, h]
    · obtain ⟨next, hnext, hnode⟩ := List.mem_flatMap.1 hnode
      have hmap := congrArg (walkedOn modern) h
      rw [walkedOn_mapped, walkedOn_mapped, List.map_map] at hmap
      exact ih next hnext (List.map_inj_left.1 (hmap.trans (List.map_id _).symm) next hnext)
        node hnode payload hlink hchanged
end
