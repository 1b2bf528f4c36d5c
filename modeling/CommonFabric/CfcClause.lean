import Mathlib.Data.List.ReduceOption
import Mathlib.Data.List.Sort
import CommonFabric.FieldOrder
import CommonFabric.JsSet

/-!
# Confidentiality clauses and their canonical form

A confidentiality label is a conjunction of clauses. A clause is a bare atom, or an
alternation of atoms under the sole key `anyOf`. Its canonical form lists each alternative
once, in the order of the atoms' hashes, and unwraps an alternation of one atom.
-/

namespace Cfc

structure IFCLabel where
  confidentiality : Option (List FabricValue)
  integrity : Option (List FabricValue)
  deriving DecidableEq

/-- A commitment marker: the digest it holds, of a record whose sole key is `digestOf`. -/
def fieldCommitment? : FabricValue → Option JsString
  | .record [(key, .string digest)] => if key = "digestOf" then some digest else none
  | _ => none

/-- `{ digestOf: digest }`. -/
def fieldCommitment (digest : JsString) : FabricValue := .record [("digestOf", .string digest)]

def isCfcFieldCommitment (value : FabricValue) : Bool := (fieldCommitment? value).isSome

/-- `anyOf` of a value that is an alternation, with its holes. -/
def orAlternatives? : FabricValue → Option (List (Option FabricValue))
  | .record [(key, .array slots)] => if key = "anyOf" then some slots else none
  | _ => none

def isOrClause (value : FabricValue) : Bool := (orAlternatives? value).isSome

/-- A bare atom is its own single alternative. -/
def clauseAlternatives (clause : FabricValue) : List (Option FabricValue) :=
  (orAlternatives? clause).getD [some clause]

/-- The alternatives that `every` and `some` visit: they skip the holes. -/
def visitedAlternatives (clause : FabricValue) : List FabricValue :=
  (clauseAlternatives clause).reduceOption

/-- The slots as `for...of` and a spread read them: a hole reads as `undefined`. -/
def listed (slots : List (Option FabricValue)) : List FabricValue := slots.map (·.getD .undefined)

/-- No alternative is a hole. -/
def NoHoles (clause : FabricValue) : Prop := none ∉ clauseAlternatives clause

instance (clause : FabricValue) : Decidable (NoHoles clause) := inferInstanceAs (Decidable (¬_))

/-- `{ anyOf: alternatives }`. -/
def orClause (alternatives : List FabricValue) : FabricValue :=
  .record [("anyOf", .array (alternatives.map some))]

@[simp] theorem orAlternatives?_orClause (xs : List FabricValue) :
    orAlternatives? (orClause xs) = some (xs.map some) := by
  simp [orAlternatives?, orClause]

@[simp] theorem listed_map_some (xs : List FabricValue) : listed (xs.map some) = xs := by
  simp [listed, Function.comp_def]

theorem mem_visitedAlternatives {x clause : FabricValue} :
    x ∈ visitedAlternatives clause ↔ some x ∈ clauseAlternatives clause :=
  List.reduceOption_mem_iff

@[simp] theorem visitedAlternatives_orClause (xs : List FabricValue) :
    visitedAlternatives (orClause xs) = xs := by
  simp [visitedAlternatives, clauseAlternatives, List.reduceOption]

theorem visitedAlternatives_of_not_or {a : FabricValue} (h : isOrClause a = false) :
    visitedAlternatives a = [a] := by
  rw [isOrClause, Option.isSome_eq_false_iff, Option.isNone_iff_eq_none] at h
  rw [visitedAlternatives, clauseAlternatives, h]
  rfl

/-- Without holes the alternatives are visited as they are listed. -/
theorem NoHoles.listed {clause : FabricValue} (h : NoHoles clause) :
    Cfc.listed (clauseAlternatives clause) = visitedAlternatives clause := by
  rw [NoHoles] at h
  rw [visitedAlternatives]
  generalize clauseAlternatives clause = slots at h
  induction slots with
  | nil => rfl
  | cons slot slots ih =>
    cases slot with
    | none => exact absurd List.mem_cons_self h
    | some x =>
      rw [List.reduceOption_cons_of_some, ← ih fun hmem => h (List.mem_cons_of_mem _ hmem)]
      rfl

theorem NoHoles.visited_ne_nil {clause : FabricValue} (h : NoHoles clause) :
    visitedAlternatives clause ≠ [] ↔ clauseAlternatives clause ≠ [] := by
  rw [← h.listed, Cfc.listed, ne_eq, List.map_eq_nil_iff]

/-- Each atom once, where it first stands. The comparisons are grouped by a key of the atoms
where there are many; the atoms kept are the same. -/
def uniqueCfcAtoms (atoms : List FabricValue) : List FabricValue :=
  (JsSet.empty.addAll atoms).items

theorem nodup_uniqueCfcAtoms (atoms : List FabricValue) : (uniqueCfcAtoms atoms).Nodup :=
  (JsSet.empty.addAll atoms).nodup

@[simp] theorem mem_uniqueCfcAtoms {atoms : List FabricValue} {a : FabricValue} :
    a ∈ uniqueCfcAtoms atoms ↔ a ∈ atoms := by
  rw [uniqueCfcAtoms, JsSet.mem_items, JsSet.mem_addAll]
  simp

theorem addAll_of_nodup {s : JsSet FabricValue} {xs : List FabricValue} (hxs : xs.Nodup)
    (hs : ∀ x ∈ xs, x ∉ s) : (s.addAll xs).items = s.items ++ xs := by
  induction xs generalizing s with
  | nil => simp [JsSet.addAll]
  | cons x xs ih =>
    obtain ⟨hx, hrest⟩ := List.nodup_cons.1 hxs
    have hadd : (s.add x).items = s.items ++ [x] := by
      rw [JsSet.add, dif_neg (hs x List.mem_cons_self)]
    have hnot : ∀ y ∈ xs, y ∉ s.add x := by
      intro y hy hmem
      rcases JsSet.mem_add.1 hmem with rfl | hmem
      · exact hx hy
      · exact hs y (List.mem_cons_of_mem _ hy) hmem
    have := ih hrest hnot
    rw [hadd, List.append_assoc, List.singleton_append] at this
    exact this

theorem uniqueCfcAtoms_of_nodup {xs : List FabricValue} (h : xs.Nodup) : uniqueCfcAtoms xs = xs :=
  addAll_of_nodup h fun x _ => JsSet.not_mem_empty x

section Canonical

variable (hashStringOf : FabricValue → JsString)

/-- `left` does not sort after `right` under `compareByCanonicalHash`. -/
def hashLe (left right : FabricValue) : Prop :=
  (hashStringOf right).lt (hashStringOf left) = false

instance : DecidableRel (hashLe hashStringOf) := fun left right =>
  inferInstanceAs (Decidable ((hashStringOf right).lt (hashStringOf left) = false))

def sortByCanonicalHash (atoms : List FabricValue) : List FabricValue :=
  atoms.insertionSort (hashLe hashStringOf)

/-- A bare atom is unchanged. An alternation lists each atom once, by canonical hash; the only
one is unwrapped, unless it has the shape of a clause itself. -/
def normalizeClause (clause : FabricValue) : FabricValue :=
  match orAlternatives? clause with
  | none => clause
  | some alternatives =>
    match uniqueCfcAtoms (listed alternatives) with
    | [a] => if isOrClause a then orClause [a] else a
    | unique => orClause (sortByCanonicalHash hashStringOf unique)

theorem hashLe_total (a b : FabricValue) : hashLe hashStringOf a b ∨ hashLe hashStringOf b a := by
  rw [hashLe, hashLe]
  by_cases h : (hashStringOf b).lt (hashStringOf a) = true
  · exact .inr (Bool.eq_false_iff.2 (JsString.lt_asymm h))
  · exact .inl (Bool.eq_false_iff.2 h)

theorem hashLe_trans {a b c : FabricValue} (hab : hashLe hashStringOf a b)
    (hbc : hashLe hashStringOf b c) : hashLe hashStringOf a c := by
  rw [hashLe] at *
  by_cases hab' : hashStringOf a = hashStringOf b
  · rw [hab']
    exact hbc
  · have hlt := JsString.lt_total (Ne.symm hab') hab
    rw [Bool.eq_false_iff]
    intro hca
    have := JsString.lt_trans hca hlt
    rw [hbc] at this
    cases this

instance : Std.Total (hashLe hashStringOf) := ⟨hashLe_total hashStringOf⟩

instance : IsTrans FabricValue (hashLe hashStringOf) :=
  ⟨fun _ _ _ => hashLe_trans hashStringOf⟩

theorem sortByCanonicalHash_perm (xs : List FabricValue) :
    (sortByCanonicalHash hashStringOf xs).Perm xs := List.perm_insertionSort _ xs

theorem pairwise_sortByCanonicalHash (xs : List FabricValue) :
    (sortByCanonicalHash hashStringOf xs).Pairwise (hashLe hashStringOf) :=
  List.pairwise_insertionSort _ xs

theorem normalizeClause_of_not_or {a : FabricValue} (h : isOrClause a = false) :
    normalizeClause hashStringOf a = a := by
  rw [isOrClause, Option.isSome_eq_false_iff, Option.isNone_iff_eq_none] at h
  rw [normalizeClause, h]

theorem normalizeClause_orClause (xs : List FabricValue) :
    normalizeClause hashStringOf (orClause xs) =
      match uniqueCfcAtoms xs with
      | [a] => if isOrClause a then orClause [a] else a
      | unique => orClause (sortByCanonicalHash hashStringOf unique) := by
  simp only [normalizeClause, orAlternatives?_orClause, listed_map_some]

/-- The canonical form lists the alternatives once each, by hash. -/
theorem visitedAlternatives_normalizeClause (xs : List FabricValue) :
    visitedAlternatives (normalizeClause hashStringOf (orClause xs)) =
      sortByCanonicalHash hashStringOf (uniqueCfcAtoms xs) := by
  rw [normalizeClause_orClause]
  split
  case h_1 a hunique =>
    rw [hunique]
    cases ha : isOrClause a with
    | true =>
      rw [if_pos rfl, visitedAlternatives_orClause]
      rfl
    | false =>
      rw [if_neg (by decide), visitedAlternatives_of_not_or ha]
      rfl
  case h_2 => rw [visitedAlternatives_orClause]

/-- A clause in its canonical form. -/
def Canonical (clause : FabricValue) : Prop := normalizeClause hashStringOf clause = clause

theorem sortByCanonicalHash_of_pairwise {xs : List FabricValue}
    (h : xs.Pairwise (hashLe hashStringOf)) : sortByCanonicalHash hashStringOf xs = xs :=
  List.Pairwise.insertionSort_eq h

theorem normalizeClause_canonical (clause : FabricValue) :
    Canonical hashStringOf (normalizeClause hashStringOf clause) := by
  rw [Canonical]
  cases hor : orAlternatives? clause with
  | none =>
    have hnot : isOrClause clause = false := by simp [isOrClause, hor]
    rw [normalizeClause_of_not_or hashStringOf hnot, normalizeClause_of_not_or hashStringOf hnot]
  | some xs =>
    have hclause : normalizeClause hashStringOf clause =
        normalizeClause hashStringOf (orClause (listed xs)) := by
      rw [normalizeClause_orClause, normalizeClause, hor]
    rw [hclause, normalizeClause_orClause]
    split
    case h_1 a hunique =>
      cases ha : isOrClause a with
      | false => exact normalizeClause_of_not_or hashStringOf ha
      | true =>
        have hself : uniqueCfcAtoms [a] = [a] := uniqueCfcAtoms_of_nodup (List.nodup_singleton a)
        rw [if_pos rfl, normalizeClause_orClause, hself]
        exact if_pos ha
    case h_2 hmany =>
      have hperm := sortByCanonicalHash_perm hashStringOf (uniqueCfcAtoms (listed xs))
      have hsorted : uniqueCfcAtoms (sortByCanonicalHash hashStringOf (uniqueCfcAtoms (listed xs))) =
          sortByCanonicalHash hashStringOf (uniqueCfcAtoms (listed xs)) :=
        uniqueCfcAtoms_of_nodup (hperm.nodup_iff.2 (nodup_uniqueCfcAtoms (listed xs)))
      rw [normalizeClause_orClause, hsorted]
      split
      case h_1 a ha =>
        rw [ha] at hperm
        exact absurd (List.perm_singleton.1 hperm.symm) (hmany a)
      case h_2 =>
        rw [sortByCanonicalHash_of_pairwise hashStringOf (pairwise_sortByCanonicalHash _ _)]

/-- `cfcCanonicalClauseDigest`. -/
def cfcCanonicalClauseDigest (clause : FabricValue) : JsString :=
  hashStringOf (normalizeClause hashStringOf clause)

end Canonical
end Cfc
