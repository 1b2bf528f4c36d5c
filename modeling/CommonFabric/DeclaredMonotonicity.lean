import CommonFabric.ClauseSubsumption
import CommonFabric.DeepEqual
import CommonFabric.JsMap

/-!
# Monotonicity of declared labels

The declared label of a path may only tighten: a stored clause has to be witnessed by a proposed
clause that subsumes it, and a proposed integrity atom has to be stored already. The check compares
the entries an update proposes with those stored at the same path, and gives a reason for each
violation. An exemption frees one clause at one path of one document.
-/

namespace DeclaredLabels

abbrev Path := List JsString

structure IFCLabel where
  confidentiality : Option (List FabricValue)
  integrity : Option (List HeldValue)

structure LabelMapEntry where
  path : Path
  label : IFCLabel
  origin : Option JsString

/-- `CfcDeclaredWideningExemption`. -/
structure DeclaredWideningExemption where
  space : JsString
  id : JsString
  path : Path
  clauseDigest : JsString

/-- The hashes and the texts of clauses and atoms. -/
structure Texts where
  hashStringOf : FabricValue → JsString
  hashOfAtom : HeldValue → JsString
  stringifyClause : FabricValue → JsString
  stringifyAtom : HeldValue → JsString

def DECLARED : JsString := "declared"

def LabelMapEntry.isDeclared (entry : LabelMapEntry) : Bool := entry.origin = some DECLARED

def LabelMapEntry.clauses (entry : LabelMapEntry) : List FabricValue :=
  entry.label.confidentiality.getD []

def LabelMapEntry.atoms (entry : LabelMapEntry) : List HeldValue := entry.label.integrity.getD []

/-- `hasLabelValues`. -/
def LabelMapEntry.hasValues (entry : LabelMapEntry) : Bool :=
  !(entry.clauses.isEmpty && entry.atoms.isEmpty)

/-- `path.join("/")`. -/
def joinPath (path : Path) : JsString := JsString.concat (path.intersperse "/")

/-- What is not to be skipped is reported, once for each key. -/
def reportOnce {α : Type} (skip : α → Bool) (key text : α → JsString) (values : List α) :
    List JsString :=
  (values.foldl (fun (s : List JsString × JsSet JsString) value =>
    if skip value then s
    else if s.2.has (key value) then s
    else (s.1 ++ [text value], s.2.add (key value))) ([], JsSet.empty)).1

/-- Puts a stored entry that declares something with those of its path. An entry of no values marks
a position, and declares no policy to keep. -/
def addStored (groups : JsMap Path (List LabelMapEntry)) (stored : LabelMapEntry) :
    JsMap Path (List LabelMapEntry) :=
  if !stored.isDeclared then groups
  else if !stored.hasValues then groups
  else match groups.get stored.path with
    | none => groups.set stored.path [stored]
    | some entries => groups.set stored.path (entries ++ [stored])

def groupByPath (storedEntries : List LabelMapEntry) : JsMap Path (List LabelMapEntry) :=
  storedEntries.foldl addStored JsMap.empty

section

variable (texts : Texts) (space docId : JsString)

def confidentialityReason (path : Path) (clause : FabricValue) : JsString :=
  JsString.concat ["declared-monotonicity confidentiality violation for ", docId, " at /",
    joinPath path, " (canUpdateStoreLabel, §8.12.1): stored clause ",
    texts.stringifyClause (Cfc.normalizeClause texts.hashStringOf clause),
    " dropped or weakened (clauses may be added and alternatives removed, never the reverse)"]

def integrityReason (path : Path) (atom : HeldValue) : JsString :=
  JsString.concat ["declared-monotonicity integrity violation for ", docId, " at /",
    joinPath path, " (canUpdateStoreLabel, §8.12.1): integrity atom ", texts.stringifyAtom atom,
    " added (the declared integrity claim may only remove atoms)"]

/-- The stored clause is at least as loose as one of the proposed ones. -/
def witnessed (proposed : List FabricValue) (stored : FabricValue) : Bool :=
  proposed.any fun clause => Cfc.clauseSubsumes texts.hashStringOf clause stored

/-- The exemption names this clause, at this path of this document. -/
def exempts (exemption : Option DeclaredWideningExemption) (path : Path) (clause : FabricValue) :
    Bool :=
  exemption.any fun e => e.space = space && e.id = docId && e.path = path &&
    e.clauseDigest = Cfc.cfcCanonicalClauseDigest texts.hashStringOf clause

/-- The violations at one path. -/
def pathViolations (exemption : Option DeclaredWideningExemption) (path : Path)
    (storedAt proposedAt : List LabelMapEntry) : List JsString :=
  let proposedClauses := proposedAt.flatMap (·.clauses)
  let storedIntegrity := storedAt.flatMap (·.atoms)
  reportOnce
      (fun clause => witnessed texts proposedClauses clause ||
        exempts texts space docId exemption path clause)
      (Cfc.cfcCanonicalClauseDigest texts.hashStringOf) (confidentialityReason texts docId path)
      (storedAt.flatMap (·.clauses)) ++
    reportOnce (fun atom => storedIntegrity.any fun stored => HeldValue.deepEquals stored atom)
      texts.hashOfAtom (integrityReason texts docId path) (proposedAt.flatMap (·.atoms))

def collectDeclaredMonotonicityViolations (storedEntries proposedEntries : List LabelMapEntry)
    (exemption : Option DeclaredWideningExemption) : List JsString :=
  let proposedDeclared := proposedEntries.filter (·.isDeclared)
  (groupByPath storedEntries).entries.flatMap fun (path, storedAt) =>
    let proposedAt := proposedDeclared.filter (·.path = path)
    if proposedAt.isEmpty then []
    else pathViolations texts space docId exemption path storedAt proposedAt

end

theorem reportOnce_eq_nil {α : Type} {skip : α → Bool} {key text : α → JsString} {values : List α} :
    reportOnce skip key text values = [] ↔ ∀ value ∈ values, skip value = true := by
  have hfold : ∀ (values : List α) (s : List JsString × JsSet JsString),
      (values.foldl (fun (s : List JsString × JsSet JsString) value =>
        if skip value then s
        else if s.2.has (key value) then s
        else (s.1 ++ [text value], s.2.add (key value))) s).1 = [] ↔
      s.1 = [] ∧ ∀ value ∈ values, skip value = true ∨ s.2.has (key value) = true := by
    intro values
    induction values with
    | nil => simp
    | cons value values ih =>
      intro s
      rw [List.foldl_cons, ih, List.forall_mem_cons]
      cases hskip : skip value with
      | true => simp
      | false =>
        cases hseen : s.2.has (key value) with
        | true => simp
        | false => simp
  rw [reportOnce, hfold]
  have hempty : ∀ k : JsString, (JsSet.empty : JsSet JsString).has k = false := fun _ => rfl
  simp [hempty]

/-- The declared entries of a path that hold something. -/
def storedAt (entries : List LabelMapEntry) (path : Path) : List LabelMapEntry :=
  entries.filter fun entry => entry.isDeclared && entry.hasValues && entry.path = path

/-- A list, where it has an element. -/
def nonEmpty {α : Type} (xs : List α) : Option (List α) := if xs.isEmpty then none else some xs

theorem get_addStored {groups : JsMap Path (List LabelMapEntry)} {entry : LabelMapEntry} {path : Path}
    {xs : List LabelMapEntry} (h : ∀ p, groups.get p = nonEmpty (storedAt xs p)) :
    (addStored groups entry).get path = nonEmpty (storedAt (xs ++ [entry]) path) := by
  have hsplit : storedAt (xs ++ [entry]) path = storedAt xs path ++
      if entry.isDeclared && entry.hasValues && entry.path = path then [entry] else [] := by
    rw [storedAt, List.filter_append, List.filter_singleton, Bool.cond_eq_ite]
    rfl
  rw [hsplit, addStored]
  cases hdeclared : entry.isDeclared with
  | false => simpa using h path
  | true =>
    cases hvalues : entry.hasValues with
    | false => simpa using h path
    | true =>
      have hget := h entry.path
      by_cases hpath : entry.path = path
      · subst hpath
        cases hstored : storedAt xs entry.path with
        | nil => rw [hstored] at hget; simp [hget, nonEmpty]
        | cons x rest => rw [hstored] at hget; simp [hget, nonEmpty]
      · cases hgroup : groups.get entry.path with
        | none => simp [JsMap.get_set_other _ hpath, hpath, h path]
        | some entries => simp [JsMap.get_set_other _ hpath, hpath, h path]

theorem get_groupByPath (entries : List LabelMapEntry) (path : Path) :
    (groupByPath entries).get path = nonEmpty (storedAt entries path) := by
  have hfold : ∀ (rest xs : List LabelMapEntry) (groups : JsMap Path (List LabelMapEntry)),
      (∀ p, groups.get p = nonEmpty (storedAt xs p)) →
        (rest.foldl addStored groups).get path = nonEmpty (storedAt (xs ++ rest) path) := by
    intro rest
    induction rest with
    | nil =>
      intro xs groups h
      rw [List.append_nil]
      exact h path
    | cons entry rest ih =>
      intro xs groups h
      rw [List.foldl_cons, List.append_cons]
      exact ih _ _ fun p => get_addStored h
  exact hfold entries [] JsMap.empty fun _ => rfl

section

variable {texts : Texts} {space docId : JsString} {storedEntries proposedEntries : List LabelMapEntry}
  {exemption : Option DeclaredWideningExemption}

/-- The declared entries of a path. -/
def declaredAt (entries : List LabelMapEntry) (path : Path) : List LabelMapEntry :=
  entries.filter fun entry => entry.isDeclared && entry.path = path

theorem pathViolations_eq_nil {path : Path} {stored proposed : List LabelMapEntry} :
    pathViolations texts space docId exemption path stored proposed = [] ↔
      (∀ e ∈ stored, ∀ clause ∈ e.clauses,
        witnessed texts (proposed.flatMap (·.clauses)) clause = true ∨
          exempts texts space docId exemption path clause = true) ∧
      ∀ e ∈ proposed, ∀ atom ∈ e.atoms, ∃ e' ∈ stored, ∃ atom' ∈ e'.atoms,
        HeldValue.deepEquals atom' atom = true := by
  rw [pathViolations, List.append_eq_nil_iff, reportOnce_eq_nil, reportOnce_eq_nil]
  simp only [List.mem_flatMap, forall_exists_index, and_imp, Bool.or_eq_true, List.any_eq_true]
  constructor
  · rintro ⟨hclauses, hatoms⟩
    refine ⟨fun e he clause hclause => hclauses clause e he hclause, fun e he atom hatom => ?_⟩
    obtain ⟨atom', ⟨e', he', hatom'⟩, hequal⟩ := hatoms atom e he hatom
    exact ⟨e', he', atom', hatom', hequal⟩
  · rintro ⟨hclauses, hatoms⟩
    refine ⟨fun clause e he hclause => hclauses e he clause hclause, fun atom e he hatom => ?_⟩
    obtain ⟨e', he', atom', hatom', hequal⟩ := hatoms e he atom hatom
    exact ⟨atom', ⟨e', he', hatom'⟩, hequal⟩

/-- What the check accepts: at each path where something is proposed, every stored clause is witnessed
or exempt, and every proposed atom is stored where anything is. -/
theorem violations_eq_nil_iff :
    collectDeclaredMonotonicityViolations texts space docId storedEntries proposedEntries exemption
        = [] ↔
      ∀ path, declaredAt proposedEntries path ≠ [] → storedAt storedEntries path ≠ [] →
        (∀ e ∈ storedAt storedEntries path, ∀ clause ∈ e.clauses,
          witnessed texts ((declaredAt proposedEntries path).flatMap (·.clauses)) clause = true ∨
            exempts texts space docId exemption path clause = true) ∧
        ∀ e ∈ declaredAt proposedEntries path, ∀ atom ∈ e.atoms,
          ∃ e' ∈ storedAt storedEntries path, ∃ atom' ∈ e'.atoms,
            HeldValue.deepEquals atom' atom = true := by
  have hproposed : ∀ path, (proposedEntries.filter (·.isDeclared)).filter (·.path = path) =
      declaredAt proposedEntries path := by
    intro path
    rw [List.filter_filter, declaredAt]
    congr 1
    funext entry
    rw [Bool.and_comm]
  rw [collectDeclaredMonotonicityViolations, List.flatMap_eq_nil_iff]
  constructor
  · intro h path hpath hstored
    have hget := get_groupByPath storedEntries path
    rw [nonEmpty, if_neg (by rwa [List.isEmpty_iff])] at hget
    have hviolations := h _ (JsMap.mem_of_get hget)
    dsimp only at hviolations
    rw [hproposed, if_neg (by rwa [List.isEmpty_iff])] at hviolations
    exact pathViolations_eq_nil.1 hviolations
  · rintro h ⟨path, stored⟩ hmem
    have hget : (groupByPath storedEntries).get path = some stored := JsMap.get_of_mem hmem
    rw [get_groupByPath, nonEmpty] at hget
    split at hget
    · cases hget
    · rename_i hstored
      rw [List.isEmpty_iff] at hstored
      dsimp only
      rw [hproposed, ← Option.some.inj hget]
      split
      · rfl
      · rename_i hpath
        rw [List.isEmpty_iff] at hpath
        exact pathViolations_eq_nil.2 (h path hpath hstored)

end

end DeclaredLabels
