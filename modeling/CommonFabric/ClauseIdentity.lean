import CommonFabric.FabricEquality
import CommonFabric.FieldOrder
import CommonFabric.JsMap
import CommonFabric.JsSet
import CommonFabric.JsonText
import CommonFabric.KeySort
import Mathlib.Data.List.Induction

/-!
# The identity of atoms and clauses

Atoms are compared by `deepEqual`. Many of them are grouped by a structural key first, which is cut
off after a number of tokens, so that an atom is compared with its own group alone. What is kept is
what a scan of all earlier atoms keeps, as atoms that are deep-equal have one key, and the canonical
form of a clause depends on what its alternatives say and on nothing else.
-/

namespace HeldValue

def DEEP_EQUAL_KEY_TOKENS : Nat := 1024

/-- `String(value)` of a number. -/
def numberString : JsNumber → JsString
  | .finite q => ⟨JsonText.numberText q⟩
  | .negZero => "0"
  | .infinity true => "-Infinity"
  | .infinity false => "Infinity"
  | .nan => "NaN"

def decimal (n : Nat) : JsString := ⟨JsonText.digits n⟩

/-- The type and the text of a value that is no object. -/
def leafToken : HeldValue → JsString
  | .undefined => "undefined:undefined"
  | .null => "object:null"
  | .bool true => "boolean:true"
  | .bool false => "boolean:false"
  | .number n => .concat [("number:" : JsString), numberString n]
  | .string s => .concat [("string:" : JsString), s]
  | .bigint i => .concat [if i < 0 then ("bigint:-" : JsString) else "bigint:", decimal i.natAbs]
  | .symbol key => .concat [("symbol:Symbol(" : JsString), key, (")" : JsString)]
  | .array .. | .record .. | .primitive .. | .wrapped .. => "object:[object Object]"

/-- What is appended to the tokens so far. -/
abbrev Append := List JsString → List JsString

/-- `keys.sort()`, the names in code unit order, each with what its value appends. -/
def sortedNames (members : List (JsString × Append)) : List (JsString × Append) :=
  KeySort.sortBy (fun a b : JsString => b.lt a = false) (·.1) members

/-- The loop over the names of an object, which is left as soon as there are too many tokens. -/
def appendMembers : List (JsString × Append) → Append
  | [], parts => parts ++ [("\x7d" : JsString)]
  | (key, append) :: rest, parts =>
    if DEEP_EQUAL_KEY_TOKENS ≤ parts.length then parts
    else appendMembers rest (append (parts ++ [.concat [("." : JsString), key]]))

def appendObject (opening : JsString) (members : List (JsString × Append)) : Append := fun parts =>
  if DEEP_EQUAL_KEY_TOKENS ≤ parts.length then parts
  else appendMembers (sortedNames members) (parts ++ [opening])

mutual
def appendDeepEqualKey : HeldValue → Append
  | .array _ slots =>
    appendObject (.concat [("[" : JsString), decimal slots.length]) (slotAppends 0 slots)
  | .record _ fields => appendObject "\x7b" (fieldAppends fields)
  | .primitive .. => appendObject "\x7b" []
  | .wrapped .. => appendObject "\x7b" []
  | leaf => fun parts =>
    if DEEP_EQUAL_KEY_TOKENS ≤ parts.length then parts else parts ++ [leafToken leaf]

/-- The indices of an array that are no holes. -/
def slotAppends : Nat → List (Option HeldValue) → List (JsString × Append)
  | _, [] => []
  | i, none :: slots => slotAppends (i + 1) slots
  | i, some value :: slots => (decimal i, appendDeepEqualKey value) :: slotAppends (i + 1) slots

def fieldAppends : Fields → List (JsString × Append)
  | [] => []
  | (key, value) :: fields => (key, appendDeepEqualKey value) :: fieldAppends fields
end

def deepEqualKey (value : HeldValue) : JsString :=
  .concat ((appendDeepEqualKey value []).intersperse (" " : JsString))

instance : Std.Total fun a b : JsString => b.lt a = false := by
  refine ⟨fun a b => ?_⟩
  cases hba : b.lt a with
  | false => exact .inl rfl
  | true => exact .inr (Bool.eq_false_iff.2 (JsString.lt_asymm hba))

instance : IsTrans JsString fun a b => b.lt a = false := by
  refine ⟨fun a b c hab hbc => Bool.eq_false_iff.2 fun hca => ?_⟩
  by_cases heq : a = b
  · rw [heq] at hca
    rw [hca] at hbc
    cases hbc
  · have hac := JsString.lt_trans hca (JsString.lt_total (Ne.symm heq) hab)
    rw [hbc] at hac
    cases hac

instance : Std.Antisymm fun a b : JsString => b.lt a = false := by
  refine ⟨fun a b hab hba => ?_⟩
  by_contra hne
  have hlt := JsString.lt_total (Ne.symm hne) hab
  rw [hba] at hlt
  cases hlt

theorem appendObject_congr (opening : JsString) {xs ys : List (JsString × Append)}
    (h : sortedNames xs = sortedNames ys) : appendObject opening xs = appendObject opening ys := by
  unfold appendObject
  rw [h]

theorem fieldAppends_eq (f : Fields) :
    fieldAppends f = f.map fun e => (e.1, appendDeepEqualKey e.2) := by
  induction f with
  | nil => rfl
  | cons e f ih => rw [fieldAppends, ih, List.map_cons]

theorem slotAppends_congr {xs ys : List (Option HeldValue)} (hlength : xs.length = ys.length)
    (hholes : ∀ i : Nat, xs[i]? = some none ↔ ys[i]? = some none)
    (h : ∀ (i : Nat) (x y : HeldValue), xs[i]? = some (some x) → ys[i]? = some (some y) →
      appendDeepEqualKey x = appendDeepEqualKey y) (start : Nat) :
    slotAppends start xs = slotAppends start ys := by
  induction xs generalizing ys start with
  | nil =>
    cases ys with
    | nil => rfl
    | cons y ys => cases hlength
  | cons x xs ih =>
    cases ys with
    | nil => cases hlength
    | cons y ys =>
      have hrest := ih (Nat.succ.inj hlength) (fun i => hholes (i + 1))
        (fun i x y => h (i + 1) x y) (start + 1)
      have hhole := hholes 0
      simp only [List.getElem?_cons_zero, Option.some.injEq] at hhole
      cases x with
      | none => rw [hhole.1 rfl, slotAppends, slotAppends, hrest]
      | some x =>
        cases y with
        | none => cases hhole.2 rfl
        | some y => rw [slotAppends, slotAppends, h 0 x y rfl rfl, hrest]

variable {a : HeldValue}

/-- Values that a walk without a comparator accepts have one key. -/
theorem appendDeepEqualKey_of_alike {b : HeldValue} (halike : Alike noComparator a b)
    (hvalid : Valid a) (hvalid' : Valid b) : appendDeepEqualKey a = appendDeepEqualKey b := by
  induction halike with
  | refl => rfl
  | answered _ _ hanswer => cases hanswer
  | @array m n xs ys _ hlength hholes _ ih =>
    rw [Valid] at hvalid hvalid'
    rw [appendDeepEqualKey, appendDeepEqualKey, hlength,
      slotAppends_congr hlength hholes fun i x y hx hy =>
        ih i x y hx hy (valid_of_getElem? hvalid hx) (valid_of_getElem? hvalid' hy)]
  | @record m n f g _ hlength hown _ ih =>
    rw [Valid] at hvalid hvalid'
    rw [appendDeepEqualKey, appendDeepEqualKey, fieldAppends_eq, fieldAppends_eq]
    apply appendObject_congr
    -- the two have the same members up to their order, and the names tell them apart
    have hnames (f : Fields) : (f.map fun e => (e.1, appendDeepEqualKey e.2)).map (·.1) =
        f.map (·.1) := by rw [List.map_map]; rfl
    have hsubset : (f.map fun e => (e.1, appendDeepEqualKey e.2)) ⊆
        g.map fun e => (e.1, appendDeepEqualKey e.2) := by
      intro member hmember
      obtain ⟨e, he, rfl⟩ := List.mem_map.1 hmember
      obtain ⟨y, hy⟩ := Option.isSome_iff_exists.1 (hown e he)
      have hmem := mem_of_get? hy
      rw [ih e he y hy (valid_of_mem hvalid.2.2 he) (valid_of_mem hvalid'.2.2 hmem)]
      exact List.mem_map.2 ⟨(e.1, y), hmem, rfl⟩
    have hnodup : (f.map fun e => (e.1, appendDeepEqualKey e.2)).Nodup :=
      List.Nodup.of_map (·.1) ((hnames f).symm ▸ hvalid.1)
    have hperm := (List.subperm_of_subset hnodup hsubset).perm_of_length_le (by simp [hlength])
    apply KeySort.sortBy_eq_of_perm hperm
    intro x hx y hy heq
    exact List.inj_on_of_nodup_map ((hnames g).symm ▸ hvalid'.1) (hperm.subset hx) hy heq
  | @special a b ha hb =>
    cases a with
    | primitive =>
      cases b with
      | primitive => rfl
      | wrapped => rfl
      | _ => cases hb
    | wrapped =>
      cases b with
      | primitive => rfl
      | wrapped => rfl
      | _ => cases hb
    | _ => cases ha

theorem deepEqualKey_of_deepEquals {b : HeldValue} (h : deepEquals a b = true) (hvalid : Valid a)
    (hvalid' : Valid b) : deepEqualKey a = deepEqualKey b := by
  rw [deepEqualKey, deepEqualKey,
    appendDeepEqualKey_of_alike (deepEquals_iff.1 h) hvalid hvalid']

mutual
/-- `CfcJsonValue`, of which the atoms are. -/
def IsJson : HeldValue → Prop
  | .null | .bool _ | .number _ | .string _ => True
  | .array _ slots => JsonSlots slots
  | .record _ fields => (fields.map (·.1)).Nodup ∧ (∀ f ∈ fields, f.1 ∉ reservedNames) ∧
      JsonFields fields
  | .undefined | .bigint _ | .symbol _ | .primitive .. | .wrapped .. => False

def JsonSlots : List (Option HeldValue) → Prop
  | [] => True
  | none :: _ => False
  | some value :: slots => IsJson value ∧ JsonSlots slots

def JsonFields : Fields → Prop
  | [] => True
  | (_, value) :: fields => IsJson value ∧ JsonFields fields
end

mutual
theorem valid_of_isJson : (a : HeldValue) → IsJson a → Valid a
  | .null, _ => by simp [Valid]
  | .bool _, _ => by simp [Valid]
  | .number _, _ => by simp [Valid]
  | .string _, _ => by simp [Valid]
  | .array _ slots, h => by
    rw [IsJson] at h
    rw [Valid]
    exact validSlots_of_json slots h
  | .record _ fields, h => by
    rw [IsJson] at h
    rw [Valid]
    exact ⟨h.1, h.2.1, validFields_of_json fields h.2.2⟩

theorem validSlots_of_json : (xs : List (Option HeldValue)) → JsonSlots xs → ValidSlots xs
  | [], _ => by simp [ValidSlots]
  | none :: _, h => by rw [JsonSlots] at h; exact h.elim
  | some value :: slots, h => by
    rw [JsonSlots] at h
    rw [ValidSlots, ValidSlot]
    exact ⟨valid_of_isJson value h.1, validSlots_of_json slots h.2⟩

theorem validFields_of_json : (f : Fields) → JsonFields f → ValidFields f
  | [], _ => by simp [ValidFields]
  | (_, value) :: fields, h => by
    rw [JsonFields] at h
    rw [ValidFields]
    exact ⟨valid_of_isJson value h.1, validFields_of_json fields h.2⟩
end

mutual
theorem fed_of_isJson : (a : HeldValue) → IsJson a → ∃ c, fed a = some c
  | .null, _ => ⟨_, rfl⟩
  | .bool _, _ => ⟨_, rfl⟩
  | .number _, _ => ⟨_, rfl⟩
  | .string _, _ => ⟨_, rfl⟩
  | .array _ slots, h => by
    rw [IsJson] at h
    obtain ⟨cs, hcs⟩ := fedSlots_of_json slots h
    exact ⟨_, fed_array.2 ⟨cs, hcs, rfl⟩⟩
  | .record _ fields, h => by
    rw [IsJson] at h
    obtain ⟨cs, hcs⟩ := fedFields_of_json fields h.2.2
    exact ⟨_, fed_record.2 ⟨cs, hcs, rfl⟩⟩

theorem fedSlots_of_json : (xs : List (Option HeldValue)) → JsonSlots xs → ∃ cs, fedSlots xs = some cs
  | [], _ => ⟨[], rfl⟩
  | none :: _, h => by rw [JsonSlots] at h; exact h.elim
  | some value :: slots, h => by
    rw [JsonSlots] at h
    obtain ⟨c, hc⟩ := fed_of_isJson value h.1
    obtain ⟨cs, hcs⟩ := fedSlots_of_json slots h.2
    exact ⟨some c :: cs, by rw [fedSlots, hc, hcs]⟩

theorem fedFields_of_json : (f : Fields) → JsonFields f → ∃ cs, fedFields f = some cs
  | [], _ => ⟨[], rfl⟩
  | (key, value) :: fields, h => by
    rw [JsonFields] at h
    obtain ⟨c, hc⟩ := fed_of_isJson value h.1
    obtain ⟨cs, hcs⟩ := fedFields_of_json fields h.2
    exact ⟨(key, c) :: cs, by rw [fedFields, hc, hcs]⟩
end

theorem isJson_of_getElem? {xs : List (Option HeldValue)} (hjson : JsonSlots xs) {i : Nat}
    {x : HeldValue} (hx : xs[i]? = some (some x)) : IsJson x := by
  induction xs generalizing i with
  | nil => cases hx
  | cons slot xs ih =>
    cases slot with
    | none => rw [JsonSlots] at hjson; exact hjson.elim
    | some value =>
      rw [JsonSlots] at hjson
      cases i with
      | zero =>
        rw [List.getElem?_cons_zero, Option.some.injEq, Option.some.injEq] at hx
        exact hx ▸ hjson.1
      | succ i => exact ih hjson.2 hx

theorem isJson_of_mem {f : Fields} (hjson : JsonFields f) {e : JsString × HeldValue} (he : e ∈ f) :
    IsJson e.2 := by
  induction f with
  | nil => cases he
  | cons e' f ih =>
    rw [JsonFields] at hjson
    cases List.mem_cons.1 he with
    | inl heq => exact heq ▸ hjson.1
    | inr he => exact ih hjson.2 he

theorem not_special_of_isJson (h : IsJson a) : a.isSpecial = false := by
  cases a with
  | primitive => rw [IsJson] at h; exact h.elim
  | wrapped => rw [IsJson] at h; exact h.elim
  | _ => rfl

/-- No special object stands at any place of a value of JSON. -/
theorem isJson_paired {b x y : HeldValue} (ha : IsJson a) (hpaired : Paired a b x y) :
    IsJson x := by
  induction hpaired with
  | refl => exact ha
  | slot i _ hx _ ih =>
    rw [IsJson] at ih
    exact isJson_of_getElem? ih hx
  | member key _ hx _ ih =>
    rw [IsJson] at ih
    exact isJson_of_mem ih.2.2 hx

/-- What a value says: what a hash of it is fed. -/
def content (a : HeldValue) : HeldValue := (fed a).getD .undefined

theorem fed_eq_content (h : IsJson a) : fed a = some a.content := by
  obtain ⟨c, hc⟩ := fed_of_isJson a h
  rw [content, hc, Option.getD_some]

/-- Values of JSON are deep-equal exactly when a hash is fed the same of both. -/
theorem deepEquals_iff_content {b : HeldValue} (ha : IsJson a) (hb : IsJson b) :
    deepEquals a b = true ↔ a.content = b.content := by
  obtain ⟨c, hc⟩ := fed_of_isJson a ha
  obtain ⟨d, hd⟩ := fed_of_isJson b hb
  rw [deepEquals_iff, content, content, hc, hd, Option.getD_some, Option.getD_some]
  constructor
  · intro halike
    apply fed_of_alike halike hc hd (valid_of_isJson a ha) (valid_of_isJson b hb)
    intro x y hpaired hanswer
    rcases hanswer with hanswer | hspecial
    · cases hanswer
    · rw [not_special_of_isJson (isJson_paired ha hpaired)] at hspecial
      cases hspecial
  · rintro rfl
    apply alike_of_fed hc hd (valid_of_isJson a ha) (valid_of_isJson b hb) fun x y _ _ _ => rfl
    intro x y hpaired hspecial
    rw [not_special_of_isJson (isJson_paired ha hpaired)] at hspecial
    cases hspecial

theorem deepEqualKey_of_content {b : HeldValue} (ha : IsJson a) (hb : IsJson b)
    (h : a.content = b.content) : deepEqualKey a = deepEqualKey b :=
  deepEqualKey_of_deepEquals ((deepEquals_iff_content ha hb).2 h) (valid_of_isJson a ha)
    (valid_of_isJson b hb)

end HeldValue

namespace ClauseIdentity

open HeldValue

def ATOM_SCAN_LIMIT : Nat := 16

def groupAtom (groups : JsMap JsString (List HeldValue)) (atom : HeldValue) :
    JsMap JsString (List HeldValue) :=
  groups.set (deepEqualKey atom) ((groups.get (deepEqualKey atom)).getD [] ++ [atom])

def groupAtomsByKey (atoms : List HeldValue) : JsMap JsString (List HeldValue) :=
  atoms.foldl groupAtom .empty

/-- What the loop of `uniqueCfcAtoms` holds between two atoms. -/
structure AtomScan where
  unique : List HeldValue
  references : JsSet HeldValue
  groups : Option (JsMap JsString (List HeldValue))

namespace AtomScan

/-- The groups, made when the next atom is the first that would use them. -/
def grouped (s : AtomScan) : Option (JsMap JsString (List HeldValue)) :=
  if s.groups.isNone && decide (ATOM_SCAN_LIMIT < s.unique.length) then
    some (groupAtomsByKey s.unique)
  else s.groups

def keep (s : AtomScan) (atom : HeldValue) (groups : Option (JsMap JsString (List HeldValue))) :
    AtomScan :=
  ⟨s.unique ++ [atom], if atom.isObject then s.references.add atom else s.references, groups⟩

def step (s : AtomScan) (atom : HeldValue) : AtomScan :=
  if atom.isObject && s.references.has atom then s
  else
    match s.grouped with
    | none => if s.unique.any (deepEquals · atom) then s else s.keep atom none
    | some groups =>
      let group := (groups.get (deepEqualKey atom)).getD []
      if group.any (deepEquals · atom) then
        { s with groups := some (groups.set (deepEqualKey atom) group) }
      else s.keep atom (some (groupAtom groups atom))

end AtomScan

def uniqueCfcAtoms (atoms : List HeldValue) : List HeldValue :=
  (atoms.foldl AtomScan.step ⟨[], .empty, none⟩).unique

/-- The atoms not deep-equal to an earlier one, in order. -/
def notEqualToEarlier : List HeldValue → List HeldValue → List HeldValue
  | _, [] => []
  | earlier, atom :: rest =>
    if earlier.any (deepEquals · atom) then notEqualToEarlier (earlier ++ [atom]) rest
    else atom :: notEqualToEarlier (earlier ++ [atom]) rest

/-- What the scan keeps of a list. -/
def firsts (atoms : List HeldValue) : List HeldValue := notEqualToEarlier [] atoms

theorem notEqualToEarlier_append (earlier xs ys : List HeldValue) :
    notEqualToEarlier earlier (xs ++ ys) =
      notEqualToEarlier earlier xs ++ notEqualToEarlier (earlier ++ xs) ys := by
  induction xs generalizing earlier with
  | nil => rw [List.append_nil]; rfl
  | cons x xs ih =>
    rw [List.cons_append, notEqualToEarlier, notEqualToEarlier, ih, List.append_assoc,
      List.singleton_append]
    split
    · rfl
    · rfl

theorem firsts_snoc (xs : List HeldValue) (atom : HeldValue) :
    firsts (xs ++ [atom]) =
      if xs.any (deepEquals · atom) then firsts xs else firsts xs ++ [atom] := by
  rw [firsts, notEqualToEarlier_append, List.nil_append, notEqualToEarlier, notEqualToEarlier]
  split
  · exact List.append_nil _
  · rfl

theorem firsts_subset (xs : List HeldValue) : ∀ x ∈ firsts xs, x ∈ xs := by
  induction xs using List.reverseRecOn with
  | nil => exact fun x hx => hx
  | append_singleton xs atom ih =>
    intro x hx
    rw [firsts_snoc] at hx
    split at hx
    · exact List.mem_append_left _ (ih x hx)
    · rcases List.mem_append.1 hx with hx | hx
      · exact List.mem_append_left _ (ih x hx)
      · exact List.mem_append_right _ hx

variable {xs seen atoms : List HeldValue} {groups : JsMap JsString (List HeldValue)} {h : Hashing}
  {places : Nat × Nat} {clause : HeldValue}

/-- Of each atom the scan keeps one that says the same. -/
theorem exists_mem_firsts (hjson : ∀ x ∈ xs, IsJson x) {x : HeldValue}
    (hx : x ∈ xs) : ∃ k ∈ firsts xs, k.content = x.content := by
  induction xs using List.reverseRecOn generalizing x with
  | nil => cases hx
  | append_singleton xs atom ih =>
    rw [List.forall_mem_append, List.forall_mem_singleton] at hjson
    have hold : ∀ {x}, x ∈ xs → ∃ k ∈ firsts (xs ++ [atom]), k.content = x.content := by
      intro x hx
      obtain ⟨k, hk, hcontent⟩ := ih hjson.1 hx
      refine ⟨k, ?_, hcontent⟩
      rw [firsts_snoc]
      split
      · exact hk
      · exact List.mem_append_left _ hk
    rcases List.mem_append.1 hx with hx | hx
    · exact hold hx
    · obtain rfl := List.mem_singleton.1 hx
      by_cases hany : xs.any (deepEquals · x) = true
      · obtain ⟨y, hy, hequal⟩ := List.any_eq_true.1 hany
        obtain ⟨k, hk, hcontent⟩ := hold hy
        exact ⟨k, hk, hcontent.trans ((deepEquals_iff_content (hjson.1 y hy) hjson.2).1 hequal)⟩
      · refine ⟨x, ?_, rfl⟩
        rw [firsts_snoc, if_neg hany]
        exact List.mem_append_right _ hx

/-- So an atom is compared with those kept in place of all earlier ones. -/
theorem any_firsts (hjson : ∀ x ∈ xs, IsJson x) {atom : HeldValue} (hatom : IsJson atom) :
    (firsts xs).any (deepEquals · atom) = true ↔ xs.any (deepEquals · atom) = true := by
  rw [List.any_eq_true, List.any_eq_true]
  constructor
  · rintro ⟨k, hk, hequal⟩
    exact ⟨k, firsts_subset xs k hk, hequal⟩
  · rintro ⟨x, hx, hequal⟩
    obtain ⟨k, hk, hcontent⟩ := exists_mem_firsts hjson hx
    refine ⟨k, hk, (deepEquals_iff_content (hjson k (firsts_subset xs k hk)) hatom).2 ?_⟩
    exact hcontent.trans ((deepEquals_iff_content (hjson x hx) hatom).1 hequal)

theorem content_nodup_firsts (hjson : ∀ x ∈ xs, IsJson x) :
    ((firsts xs).map content).Nodup := by
  induction xs using List.reverseRecOn with
  | nil => exact List.nodup_nil
  | append_singleton xs atom ih =>
    rw [List.forall_mem_append, List.forall_mem_singleton] at hjson
    rw [firsts_snoc]
    split
    case isTrue => exact ih hjson.1
    case isFalse hany =>
      rw [List.map_append, List.map_singleton]
      refine List.nodup_append.2 ⟨ih hjson.1, List.nodup_singleton _, ?_⟩
      intro c hc d hd heq
      obtain ⟨k, hk, rfl⟩ := List.mem_map.1 hc
      rw [List.mem_singleton.1 hd] at heq
      have hmem := firsts_subset xs k hk
      exact hany (List.any_eq_true.2
        ⟨k, hmem, (deepEquals_iff_content (hjson.1 k hmem) hjson.2).2 heq⟩)

/-- A list whose atoms all say something else is kept as it is. -/
theorem firsts_of_nodup (hjson : ∀ x ∈ xs, IsJson x)
    (h : (xs.map content).Nodup) : firsts xs = xs := by
  induction xs using List.reverseRecOn with
  | nil => rfl
  | append_singleton xs atom ih =>
    rw [List.forall_mem_append, List.forall_mem_singleton] at hjson
    rw [List.map_append, List.map_singleton, List.nodup_append] at h
    rw [firsts_snoc, ih hjson.1 h.1, if_neg]
    intro hany
    obtain ⟨x, hx, hequal⟩ := List.any_eq_true.1 hany
    exact h.2.2 _ (List.mem_map_of_mem hx) _ (List.mem_singleton_self _)
      ((deepEquals_iff_content (hjson.1 x hx) hjson.2).1 hequal)

/-- Each group holds the kept atoms of its key, in order. -/
def GroupsHold (groups : JsMap JsString (List HeldValue)) (unique : List HeldValue) : Prop :=
  ∀ key, (groups.get key).getD [] = unique.filter fun kept => deepEqualKey kept = key

theorem GroupsHold.groupAtom {unique : List HeldValue}
    (h : GroupsHold groups unique) (atom : HeldValue) :
    GroupsHold (groupAtom groups atom) (unique ++ [atom]) := by
  intro key
  rw [ClauseIdentity.groupAtom, JsMap.get_set, List.filter_append, h]
  by_cases hkey : deepEqualKey atom = key
  · subst hkey
    simp
  · rw [if_neg hkey, h]
    simp [hkey]

theorem groupsHold_groupAtomsByKey (atoms : List HeldValue) :
    GroupsHold (groupAtomsByKey atoms) atoms := by
  induction atoms using List.reverseRecOn with
  | nil => exact fun key => rfl
  | append_singleton atoms atom ih =>
    rw [groupAtomsByKey, List.foldl_append]
    exact ih.groupAtom atom

/-- After a part of the list the loop holds what the scan keeps of it. -/
structure AtomScan.After (seen : List HeldValue) (s : AtomScan) : Prop where
  unique : s.unique = firsts seen
  references : ∀ r ∈ s.references, r ∈ firsts seen
  groups : ∀ groups, s.groups = some groups → GroupsHold groups (firsts seen)

theorem AtomScan.After.grouped {s : AtomScan} (h : s.After seen)
    (hgroups : s.grouped = some groups) :
    GroupsHold groups (firsts seen) := by
  rw [AtomScan.grouped] at hgroups
  split at hgroups
  · obtain rfl := Option.some.inj hgroups
    rw [h.unique]
    exact groupsHold_groupAtomsByKey _
  · exact h.groups groups hgroups

/-- An atom is equal to one of its group exactly when it is equal to one that is kept. -/
theorem any_group (hseen : ∀ x ∈ seen, IsJson x) {atom : HeldValue} (hatom : IsJson atom)
    (h : GroupsHold groups (firsts seen)) :
    ((groups.get (deepEqualKey atom)).getD []).any (deepEquals · atom) =
      (firsts seen).any (deepEquals · atom) := by
  rw [h, Bool.eq_iff_iff, List.any_eq_true, List.any_eq_true]
  constructor
  · rintro ⟨k, hk, hequal⟩
    exact ⟨k, (List.mem_filter.1 hk).1, hequal⟩
  · rintro ⟨k, hk, hequal⟩
    have hjson := hseen k (firsts_subset seen k hk)
    have hkey := deepEqualKey_of_content hjson hatom ((deepEquals_iff_content hjson hatom).1 hequal)
    exact ⟨k, List.mem_filter.2 ⟨hk, decide_eq_true hkey⟩, hequal⟩

theorem AtomScan.After.step (hseen : ∀ x ∈ seen, IsJson x)
    {atom : HeldValue} (hatom : IsJson atom) {s : AtomScan} (h : s.After seen) :
    (s.step atom).After (seen ++ [atom]) := by
  have hdropped : (firsts seen).any (deepEquals · atom) = true →
      firsts (seen ++ [atom]) = firsts seen := by
    intro hany
    rw [firsts_snoc, if_pos ((any_firsts hseen hatom).1 hany)]
  have hkept : ¬(firsts seen).any (deepEquals · atom) = true →
      firsts (seen ++ [atom]) = firsts seen ++ [atom] := by
    intro hany
    rw [firsts_snoc, if_neg fun h => hany ((any_firsts hseen hatom).2 h)]
  have hkeep : ¬(firsts seen).any (deepEquals · atom) = true →
      ∀ groups, (∀ groups', groups = some groups' → GroupsHold groups' (firsts seen ++ [atom])) →
        (s.keep atom groups).After (seen ++ [atom]) := by
    intro hany groups hgroups
    refine ⟨?_, fun r hr => ?_, fun groups' hgroups' => ?_⟩
    · rw [hkept hany, ← h.unique]
      rfl
    · rw [hkept hany, List.mem_append, List.mem_singleton]
      rw [AtomScan.keep] at hr
      dsimp only at hr
      split at hr
      · rcases JsSet.mem_add.1 hr with rfl | hr
        · exact .inr rfl
        · exact .inl (h.references r hr)
      · exact .inl (h.references r hr)
    · rw [hkept hany]
      exact hgroups groups' hgroups'
  rw [AtomScan.step]
  split
  case isTrue href =>
    -- an object that was kept is equal to itself
    rw [Bool.and_eq_true, JsSet.has_iff] at href
    have hmem := h.references atom href.2
    have hself : (firsts seen).any (deepEquals · atom) = true :=
      List.any_eq_true.2 ⟨atom, hmem, (deepEquals_iff_content hatom hatom).2 rfl⟩
    exact ⟨(hdropped hself).symm ▸ h.unique, (hdropped hself).symm ▸ h.references,
      (hdropped hself).symm ▸ h.groups⟩
  case isFalse =>
    cases hgroups : s.grouped with
    | none =>
      dsimp only
      rw [h.unique]
      split
      case isTrue hany =>
        exact ⟨(hdropped hany).symm ▸ h.unique, (hdropped hany).symm ▸ h.references,
          (hdropped hany).symm ▸ h.groups⟩
      case isFalse hany => exact hkeep hany none fun groups' h => by cases h
    | some groups =>
      have hhold := h.grouped hgroups
      dsimp only
      rw [any_group hseen hatom hhold]
      split
      case isTrue hany =>
        refine ⟨(hdropped hany).symm ▸ h.unique, (hdropped hany).symm ▸ h.references, ?_⟩
        intro groups' hgroups'
        obtain rfl := Option.some.inj hgroups'
        rw [hdropped hany]
        intro key
        rw [JsMap.get_set]
        split
        case isTrue hkey => rw [← hkey, Option.getD_some, hhold]
        case isFalse => exact hhold key
      case isFalse hany =>
        apply hkeep hany
        intro groups' hgroups'
        obtain rfl := Option.some.inj hgroups'
        exact hhold.groupAtom atom

theorem uniqueCfcAtoms_eq_firsts (hjson : ∀ x ∈ atoms, IsJson x) :
    uniqueCfcAtoms atoms = firsts atoms := by
  have hrun : ∀ (rest seen : List HeldValue) (s : AtomScan), (∀ x ∈ seen ++ rest, IsJson x) →
      s.After seen → (rest.foldl AtomScan.step s).After (seen ++ rest) := by
    intro rest
    induction rest with
    | nil => intro seen s _ h; rw [List.append_nil]; exact h
    | cons atom rest ih =>
      intro seen s hall h
      obtain ⟨hseen, hrest⟩ := List.forall_mem_append.1 hall
      have hatom := hrest atom List.mem_cons_self
      rw [List.append_cons, List.foldl_cons] at *
      exact ih _ _ hall (h.step hseen hatom)
  exact (hrun atoms [] ⟨[], .empty, none⟩ hjson
    ⟨rfl, fun r hr => (by cases hr), fun groups h => (by cases h)⟩).unique

/-- The alternatives of a value that is an alternation. A hole among them reads as `undefined`. -/
def orAlternatives? : HeldValue → Option (List HeldValue)
  | .record _ [(key, .array _ slots)] =>
    if key = "anyOf" then some (slots.map (·.getD .undefined)) else none
  | _ => none

def isOrClause (value : HeldValue) : Bool := (orAlternatives? value).isSome

/-- A new `{ anyOf: alternatives }`, with the places its two objects are put at. -/
def orClause (places : Nat × Nat) (alternatives : List HeldValue) : HeldValue :=
  .record places.1 [("anyOf", .array places.2 (alternatives.map some))]

/-- `unique.sort(compareByCanonicalHash)`. -/
def sortByCanonicalHash (h : Hashing) (atoms : List HeldValue) :
    Except HashError (List HeldValue) := do
  let hashed ← atoms.mapM fun atom => do
    let hash ← hashStringOf h atom
    .ok (hash, atom)
  .ok ((KeySort.sortBy (fun a b : JsString => b.lt a = false) (·.1) hashed).map (·.2))

def normalizeClause (h : Hashing) (places : Nat × Nat) (clause : HeldValue) :
    Except HashError HeldValue :=
  match orAlternatives? clause with
  | none => .ok clause
  | some alternatives =>
    match uniqueCfcAtoms alternatives with
    | [atom] => .ok (if isOrClause atom then orClause places [atom] else atom)
    | unique => do
      let sorted ← sortByCanonicalHash h unique
      .ok (orClause places sorted)

/-- The atoms in the order of the digests of what they say. -/
def hashOrder (h : Hashing) (atoms : List HeldValue) : List HeldValue :=
  KeySort.sortBy (fun a b : JsString => b.lt a = false) (fun atom => h.digest atom.content) atoms

theorem sortByCanonicalHash_ok (h : Hashing)
    (hjson : ∀ x ∈ atoms, IsJson x) : sortByCanonicalHash h atoms = .ok (hashOrder h atoms) := by
  have hmap : (atoms.mapM fun atom => do
      let hash ← hashStringOf h atom
      Except.ok (hash, atom)) = .ok (atoms.map fun atom => (h.digest atom.content, atom)) := by
    induction atoms with
    | nil => rfl
    | cons atom atoms ih =>
      obtain ⟨hatom, hatoms⟩ := List.forall_mem_cons.1 hjson
      rw [List.mapM_cons, ih hatoms, hashStringOf, fed_eq_content hatom]
      rfl
  have hsort : (hashOrder h atoms).map (fun atom => (h.digest atom.content, atom)) =
      KeySort.sortBy (fun a b : JsString => b.lt a = false) (·.1)
        (atoms.map fun atom => (h.digest atom.content, atom)) :=
    KeySort.map_sortBy (fun pair : JsString × HeldValue => pair.1)
      (fun atom : HeldValue => (h.digest atom.content, atom)) atoms
  rw [sortByCanonicalHash, hmap]
  show Except.ok _ = _
  rw [← hsort, List.map_map]
  exact congrArg Except.ok (List.map_id _)

theorem mem_hashOrder {x : HeldValue} :
    x ∈ hashOrder h atoms ↔ x ∈ atoms := KeySort.mem_sortBy

theorem isJson_orClause :
    IsJson (orClause places xs) ↔ ∀ x ∈ xs, IsJson x := by
  have hslots : JsonSlots (xs.map some) ↔ ∀ x ∈ xs, IsJson x := by
    induction xs with
    | nil => simp [JsonSlots]
    | cons x xs ih => rw [List.map_cons, JsonSlots, ih, List.forall_mem_cons]
  rw [orClause, IsJson, ← hslots]
  simp only [List.map_cons, List.map_nil, List.forall_mem_singleton, JsonFields, IsJson]
  simp only [reservedNames]
  exact ⟨fun h => h.2.2.1, fun h => ⟨by simp, by decide, h, trivial⟩⟩

theorem orAlternatives?_orClause (places : Nat × Nat) (xs : List HeldValue) :
    orAlternatives? (orClause places xs) = some xs := by
  simp [orAlternatives?, orClause, Function.comp_def]

theorem map_getD_of_json {xs : List (Option HeldValue)} (h : JsonSlots xs) :
    xs.map (some ∘ fun slot => slot.getD .undefined) = xs := by
  induction xs with
  | nil => rfl
  | cons slot xs ih =>
    cases slot with
    | none => rw [JsonSlots] at h; exact h.elim
    | some value =>
      rw [JsonSlots] at h
      rw [List.map_cons, ih h.2]
      rfl

/-- An alternation of JSON is a list of its alternatives under the one key. -/
theorem exists_orClause (hjson : IsJson clause)
    (h : orAlternatives? clause = some xs) : ∃ places, clause = orClause places xs := by
  rw [orAlternatives?.eq_def] at h
  split at h
  case h_1 r key s slots =>
    split at h
    case isFalse => cases h
    case isTrue hkey =>
      subst hkey
      refine ⟨(r, s), ?_⟩
      rw [IsJson, JsonFields, IsJson] at hjson
      rw [orClause, ← Option.some.inj h, List.map_map]
      exact congrArg (fun slots => HeldValue.record r [("anyOf", .array s slots)])
        (map_getD_of_json hjson.2.2.1).symm
  case h_2 => cases h

/-- Alternations whose alternatives say the same say the same. -/
theorem content_orClause {places' : Nat × Nat} {ys : List HeldValue}
    (hxs : ∀ x ∈ xs, IsJson x) (hys : ∀ y ∈ ys, IsJson y) (h : xs.map content = ys.map content) :
    (orClause places xs).content = (orClause places' ys).content := by
  have hfed : ∀ zs : List HeldValue, (∀ z ∈ zs, IsJson z) →
      fedSlots (zs.map some) = some ((zs.map content).map some) := by
    intro zs hzs
    induction zs with
    | nil => rfl
    | cons z zs ih =>
      obtain ⟨hz, hzs⟩ := List.forall_mem_cons.1 hzs
      rw [List.map_cons, fedSlots, fed_eq_content hz, ih hzs]
      rfl
  simp only [content, orClause, fed, fedFields, hfed xs hxs, hfed ys hys, h, Option.map_some]

/-- An alternation is told by what it says. -/
theorem isOrClause_congr {a b : HeldValue} (ha : IsJson a) (hb : IsJson b)
    (h : a.content = b.content) (hor : isOrClause a = true) : isOrClause b = true := by
  obtain ⟨xs, hxs⟩ := Option.isSome_iff_exists.1 hor
  obtain ⟨places, rfl⟩ := exists_orClause ha hxs
  have halike := deepEquals_iff.1 ((deepEquals_iff_content ha hb).2 h)
  rw [orClause] at halike
  cases halike with
  | refl => rw [isOrClause, ← orClause, orAlternatives?_orClause]; rfl
  | answered _ _ hanswer => cases hanswer
  | special hspecial => cases hspecial
  | @record _ n _ g _ hlength hown hmembers =>
    obtain ⟨y, hy⟩ := Option.isSome_iff_exists.1 (hown _ List.mem_cons_self)
    obtain ⟨e, rfl⟩ := List.length_eq_one_iff.1 hlength.symm
    obtain rfl := List.mem_singleton.1 (mem_of_get? hy)
    have hvalue := hmembers _ List.mem_cons_self y hy
    cases hvalue with
    | refl => rfl
    | answered _ _ hanswer => cases hanswer
    | array => rfl
    | special hspecial => cases hspecial

/-- The canonical form of an alternation, of the atoms kept of it. -/
def canonicalClause (h : Hashing) (places : Nat × Nat) : List HeldValue → HeldValue
  | [atom] => if isOrClause atom then orClause places [atom] else atom
  | unique => orClause places (hashOrder h unique)

theorem canonicalClause_of_many (h : Hashing) (places : Nat × Nat)
    (hmany : ∀ x, xs ≠ [x]) : canonicalClause h places xs = orClause places (hashOrder h xs) := by
  rw [canonicalClause.eq_def]
  split
  case h_1 x => exact absurd rfl (hmany x)
  case h_2 => rfl

theorem isJson_canonicalClause
    (hjson : ∀ x ∈ xs, IsJson x) : IsJson (canonicalClause h places xs) := by
  rw [canonicalClause.eq_def]
  split
  case h_1 x =>
    split
    · exact isJson_orClause.2 hjson
    · exact hjson x List.mem_cons_self
  case h_2 => exact isJson_orClause.2 fun x hx => hjson x (mem_hashOrder.1 hx)

theorem json_firsts (hjson : ∀ x ∈ xs, IsJson x) :
    ∀ x ∈ firsts xs, IsJson x := fun x hx => hjson x (firsts_subset xs x hx)

theorem normalizeClause_orClause (h : Hashing) (places places' : Nat × Nat)
    (hjson : ∀ x ∈ xs, IsJson x) :
    normalizeClause h places (orClause places' xs) =
      .ok (canonicalClause h places (firsts xs)) := by
  rw [normalizeClause, orAlternatives?_orClause]
  dsimp only
  rw [uniqueCfcAtoms_eq_firsts hjson]
  have hfirsts := json_firsts hjson
  generalize firsts xs = unique at hfirsts
  split
  case h_1 => rfl
  case h_2 hmany =>
    rw [sortByCanonicalHash_ok h hfirsts, canonicalClause_of_many h places fun x hx => hmany x hx]
    rfl

theorem normalizeClause_of_not_or (h : Hashing) (places : Nat × Nat)
    (hnot : isOrClause clause = false) : normalizeClause h places clause = .ok clause := by
  rw [isOrClause, Option.isSome_eq_false_iff, Option.isNone_iff_eq_none] at hnot
  rw [normalizeClause, hnot]

theorem hashOrder_perm (h : Hashing) (xs : List HeldValue) : (hashOrder h xs).Perm xs :=
  KeySort.sortBy_perm xs

/-- No two of the values have one digest, unless they say the same. -/
def DigestsDiffer (h : Hashing) (xs : List HeldValue) : Prop :=
  ∀ a ∈ xs, ∀ b ∈ xs, h.digest a.content = h.digest b.content → a.content = b.content

/-- The order depends on what the atoms say and not on how they came. -/
theorem content_hashOrder {ys : List HeldValue} (hdiffer : DigestsDiffer h xs)
    (hperm : (xs.map content).Perm (ys.map content)) :
    (hashOrder h xs).map content = (hashOrder h ys).map content := by
  have hmap (zs : List HeldValue) : (hashOrder h zs).map content =
      KeySort.sortBy (fun a b : JsString => b.lt a = false) h.digest (zs.map content) :=
    KeySort.map_sortBy h.digest content zs
  rw [hmap, hmap]
  apply KeySort.sortBy_eq_of_perm hperm
  intro c hc d hd heq
  obtain ⟨a, ha, rfl⟩ := List.mem_map.1 hc
  obtain ⟨b, hb, rfl⟩ := List.mem_map.1 (hperm.mem_iff.2 hd)
  exact hdiffer a ha b hb heq

theorem content_canonicalClause {places' : Nat × Nat} {ys : List HeldValue}
    (hxs : ∀ x ∈ xs, IsJson x) (hys : ∀ y ∈ ys, IsJson y) (hdiffer : DigestsDiffer h xs)
    (hperm : (xs.map content).Perm (ys.map content)) :
    (canonicalClause h places xs).content = (canonicalClause h places' ys).content := by
  have hlength : xs.length = ys.length := by simpa using hperm.length_eq
  by_cases hone : ∃ x, xs = [x]
  · obtain ⟨x, rfl⟩ := hone
    obtain ⟨y, rfl⟩ := List.length_eq_one_iff.1 hlength.symm
    have hx := hxs x List.mem_cons_self
    have hy := hys y List.mem_cons_self
    have hcontent : x.content = y.content := by simpa using hperm
    rw [canonicalClause, canonicalClause]
    by_cases hor : isOrClause x = true
    · rw [if_pos hor, if_pos (isOrClause_congr hx hy hcontent hor)]
      exact content_orClause hxs hys (by rw [List.map_singleton, List.map_singleton, hcontent])
    · rw [if_neg hor, if_neg fun h => hor (isOrClause_congr hy hx hcontent.symm h), hcontent]
  · have hmany : ∀ x, xs ≠ [x] := fun x hx => hone ⟨x, hx⟩
    have hmany' : ∀ y, ys ≠ [y] := by
      rintro y rfl
      obtain ⟨x, hx⟩ := List.length_eq_one_iff.1 hlength
      exact hmany x hx
    rw [canonicalClause_of_many h places hmany, canonicalClause_of_many h places' hmany']
    exact content_orClause (fun x hx => hxs x (mem_hashOrder.1 hx))
      (fun y hy => hys y (mem_hashOrder.1 hy)) (content_hashOrder hdiffer hperm)

/-- Lists that say the same, in whatever order and number, keep atoms that say the same. -/
theorem firsts_perm {ys : List HeldValue} (hxs : ∀ x ∈ xs, IsJson x) (hys : ∀ y ∈ ys, IsJson y)
    (h : ∀ c, c ∈ xs.map content ↔ c ∈ ys.map content) :
    ((firsts xs).map content).Perm ((firsts ys).map content) := by
  have hmem : ∀ {zs : List HeldValue}, (∀ z ∈ zs, IsJson z) →
      ∀ c, c ∈ (firsts zs).map content ↔ c ∈ zs.map content := by
    intro zs hzs c
    constructor
    · intro hc
      obtain ⟨z, hz, rfl⟩ := List.mem_map.1 hc
      exact List.mem_map_of_mem (firsts_subset zs z hz)
    · intro hc
      obtain ⟨z, hz, rfl⟩ := List.mem_map.1 hc
      obtain ⟨k, hk, hcontent⟩ := exists_mem_firsts hzs hz
      exact hcontent ▸ List.mem_map_of_mem hk
  rw [List.perm_ext_iff_of_nodup (content_nodup_firsts hxs) (content_nodup_firsts hys)]
  intro c
  rw [hmem hxs, hmem hys, h]

theorem firsts_hashOrder (hjson : ∀ x ∈ xs, IsJson x) :
    firsts (hashOrder h (firsts xs)) = hashOrder h (firsts xs) := by
  apply firsts_of_nodup fun x hx => json_firsts hjson x (mem_hashOrder.1 hx)
  exact ((hashOrder_perm h _).map content).nodup_iff.2 (content_nodup_firsts hjson)

/-- The canonical form of a clause is its own. -/
theorem normalizeClause_idem (h : Hashing) (places places' : Nat × Nat) (hjson : IsJson clause) :
    ∃ n n', normalizeClause h places clause = .ok n ∧ normalizeClause h places' n = .ok n' ∧
      deepEquals n n' = true := by
  have hself : ∀ {n : HeldValue}, IsJson n → deepEquals n n = true := fun hn =>
    (deepEquals_iff_content hn hn).2 rfl
  cases hor : orAlternatives? clause with
  | none =>
    have hnot : isOrClause clause = false := by rw [isOrClause, hor]; rfl
    exact ⟨clause, clause, normalizeClause_of_not_or h places hnot,
      normalizeClause_of_not_or h places' hnot, hself hjson⟩
  | some xs =>
    obtain ⟨places₀, rfl⟩ := exists_orClause hjson hor
    have hxs := isJson_orClause.1 hjson
    have hfirsts := json_firsts hxs
    suffices hagain : ∃ n', normalizeClause h places' (canonicalClause h places (firsts xs)) =
        .ok n' ∧ deepEquals (canonicalClause h places (firsts xs)) n' = true by
      obtain ⟨n', hn', hequal⟩ := hagain
      exact ⟨_, n', normalizeClause_orClause h places places₀ hxs, hn', hequal⟩
    by_cases hone : ∃ x, firsts xs = [x]
    · obtain ⟨x, hx⟩ := hone
      rw [hx] at hfirsts ⊢
      have hxjson := hfirsts x List.mem_cons_self
      rw [canonicalClause]
      by_cases hinner : isOrClause x = true
      · have hnodup : firsts [x] = [x] := firsts_of_nodup hfirsts (List.nodup_singleton _)
        rw [if_pos hinner, normalizeClause_orClause h places' places hfirsts, hnodup,
          canonicalClause, if_pos hinner]
        exact ⟨_, rfl, (deepEquals_iff_content (isJson_orClause.2 hfirsts)
          (isJson_orClause.2 hfirsts)).2 (content_orClause hfirsts hfirsts rfl)⟩
      · rw [if_neg hinner, normalizeClause_of_not_or h places' (Bool.eq_false_iff.2 hinner)]
        exact ⟨_, rfl, hself hxjson⟩
    · have hmany : ∀ x, firsts xs ≠ [x] := fun x hx => hone ⟨x, hx⟩
      have hmany' : ∀ x, hashOrder h (firsts xs) ≠ [x] := fun x hx => hmany x <| by
        have hperm := hashOrder_perm h (firsts xs)
        rw [hx] at hperm
        exact List.perm_singleton.1 hperm.symm
      have hsorted : ∀ x ∈ hashOrder h (firsts xs), IsJson x := fun x hx =>
        hfirsts x (mem_hashOrder.1 hx)
      rw [canonicalClause_of_many h places hmany, normalizeClause_orClause h places' places hsorted,
        firsts_hashOrder hxs, canonicalClause_of_many h places' hmany']
      refine ⟨_, rfl, (deepEquals_iff_content (isJson_orClause.2 hsorted) (isJson_orClause.2
        fun x hx => hsorted x (mem_hashOrder.1 hx))).2 (content_orClause hsorted
          (fun x hx => hsorted x (mem_hashOrder.1 hx)) ?_)⟩
      have hagain : hashOrder h (hashOrder h (firsts xs)) = hashOrder h (firsts xs) :=
        KeySort.sortBy_of_pairwise (@KeySort.pairwise_sortBy _ _
          (fun a b : JsString => b.lt a = false) _ (fun atom : HeldValue => h.digest atom.content) _ _
          (firsts xs))
      rw [hagain]

end ClauseIdentity

/-- An atom. -/
structure CfcAtom where
  value : HeldValue
  isJson : value.IsJson

namespace ClauseIdentity

open HeldValue

/-- Each alternative of either list is deep-equal to one of the other. -/
def SameAlternatives (atoms others : List CfcAtom) : Prop :=
  (∀ a ∈ atoms, ∃ b ∈ others, deepEquals a.value b.value = true) ∧
    ∀ b ∈ others, ∃ a ∈ atoms, deepEquals b.value a.value = true

theorem json_values (atoms : List CfcAtom) : ∀ x ∈ atoms.map (·.value), IsJson x := by
  intro x hx
  obtain ⟨atom, _, rfl⟩ := List.mem_map.1 hx
  exact atom.isJson

theorem SameAlternatives.content {atoms others : List CfcAtom} (h : SameAlternatives atoms others)
    (c : HeldValue) : c ∈ (atoms.map (·.value)).map HeldValue.content ↔
      c ∈ (others.map (·.value)).map HeldValue.content := by
  have hone : ∀ {xs ys : List CfcAtom},
      (∀ x ∈ xs, ∃ y ∈ ys, deepEquals x.value y.value = true) →
      c ∈ (xs.map (·.value)).map HeldValue.content →
      c ∈ (ys.map (·.value)).map HeldValue.content := by
    intro xs ys hfound hc
    obtain ⟨_, hvalue, rfl⟩ := List.mem_map.1 hc
    obtain ⟨x, hx, rfl⟩ := List.mem_map.1 hvalue
    obtain ⟨y, hy, hequal⟩ := hfound x hx
    rw [(deepEquals_iff_content x.isJson y.isJson).1 hequal]
    exact List.mem_map_of_mem (List.mem_map_of_mem hy)
  exact ⟨hone h.1, hone h.2⟩

/-- The grouped scan keeps the atoms not deep-equal to an earlier one, and a clause has one canonical
form however its alternatives are ordered and repeated. -/
theorem atoms_by_content (h : Hashing) (places places' : Nat × Nat) (atoms : List CfcAtom) :
    uniqueCfcAtoms (atoms.map (·.value)) = notEqualToEarlier [] (atoms.map (·.value)) ∧
    (∀ a b : CfcAtom, deepEquals a.value b.value = true →
      deepEqualKey a.value = deepEqualKey b.value) ∧
    (∀ clause : CfcAtom, ∃ n n', normalizeClause h places clause.value = .ok n ∧
      normalizeClause h places' n = .ok n' ∧ deepEquals n n' = true) ∧
    ∀ others : List CfcAtom, SameAlternatives atoms others →
      DigestsDiffer h (atoms.map (·.value)) → ∃ n n',
        normalizeClause h places (orClause places (atoms.map (·.value))) = .ok n ∧
        normalizeClause h places' (orClause places' (others.map (·.value))) = .ok n' ∧
        deepEquals n n' = true := by
  refine ⟨uniqueCfcAtoms_eq_firsts (json_values atoms), fun a b hequal => ?_,
    fun clause => normalizeClause_idem h places places' clause.isJson, fun others hsame hdiffer => ?_⟩
  · exact deepEqualKey_of_deepEquals hequal (valid_of_isJson _ a.isJson) (valid_of_isJson _ b.isJson)
  · have hxs := json_values atoms
    have hys := json_values others
    refine ⟨_, _, normalizeClause_orClause h places places hxs,
      normalizeClause_orClause h places' places' hys, ?_⟩
    rw [deepEquals_iff_content (isJson_canonicalClause (json_firsts hxs))
      (isJson_canonicalClause (json_firsts hys))]
    apply content_canonicalClause (json_firsts hxs) (json_firsts hys)
    · exact fun a ha b hb => hdiffer a (firsts_subset _ a ha) b (firsts_subset _ b hb)
    · exact firsts_perm hxs hys hsame.content

/-- A digest that tells texts apart. -/
def textHashing : Hashing where
  digest c := match c with
    | .string s => s
    | _ => ""
  isDeepFrozen _ := .ok true
  isDeepFrozen_ok _ _ _ := ⟨true, rfl⟩

def textAtom (s : JsString) : CfcAtom := ⟨.string s, by simp [IsJson]⟩

theorem atoms_by_content_swapped :
    ∃ n n', normalizeClause textHashing (1, 2) (orClause (1, 2) [.string "bob", .string "alice"]) =
        .ok n ∧
      normalizeClause textHashing (3, 4)
        (orClause (3, 4) [.string "alice", .string "bob", .string "alice"]) = .ok n' ∧
      deepEquals n n' = true := by
  apply (atoms_by_content textHashing (1, 2) (3, 4) [textAtom "bob", textAtom "alice"]).2.2.2
    [textAtom "alice", textAtom "bob", textAtom "alice"]
  · have hself (s : JsString) : deepEquals (textAtom s).value (textAtom s).value = true :=
      deepEquals_iff.2 (.refl _)
    constructor
    · rw [List.forall_mem_cons, List.forall_mem_singleton]
      exact ⟨⟨textAtom "bob", by simp, hself _⟩, ⟨textAtom "alice", by simp, hself _⟩⟩
    · rw [List.forall_mem_cons, List.forall_mem_cons, List.forall_mem_singleton]
      exact ⟨⟨textAtom "alice", by simp, hself _⟩, ⟨textAtom "bob", by simp, hself _⟩,
        ⟨textAtom "alice", by simp, hself _⟩⟩
  · intro a ha b hb hdigest
    obtain ⟨x, _, rfl⟩ := List.mem_map.1 ha
    simp only [List.map_cons, List.map_nil, textAtom, List.mem_cons, List.not_mem_nil, or_false] at ha hb
    rcases ha with ha | ha <;> rcases hb with hb | hb <;> rw [ha, hb] at hdigest ⊢ <;>
      exact absurd hdigest (by decide)

end ClauseIdentity
