import CommonFabric.DeclaredMonotonicity
import CommonFabric.LabelRepresentation

/-!
# Runs of declared label updates

An update mints declared labels anew at some paths, and carries those of all other paths. Over a run
of updates that the check accepts, every clause that was declared is still witnessed, step by step,
and no integrity atom comes back as long as the label of its path is never left empty.
-/

namespace DeclaredLabels

open Relation (ReflTransGen)

/-- What a write makes of a document's declared labels: the entries it mints, the paths whose schema
it mints from, the paths at which the schema holds a policy claim, the paths it writes links at, and
the entries of other origins. -/
structure Update where
  minted : List LabelMapEntry
  minted_declared : ∀ e ∈ minted, e.isDeclared = true
  reminted : List Path
  claimed : Path → Bool
  linkWritten : List Path
  others : List LabelMapEntry
  others_not_declared : ∀ e ∈ others, e.isDeclared = false

namespace Update

def mintsAt (u : Update) (path : Path) : Bool := u.minted.any (·.path = path)

/-- The entries the check is given: those minted, and one of no values for each path that is minted
anew and to no label. -/
def proposedEntries (u : Update) : List LabelMapEntry :=
  u.minted ++ (u.reminted.filter (!u.mintsAt ·)).map fun path => ⟨path, ⟨none, none⟩, some DECLARED⟩

/-- A stored declared entry is carried forward unless its path is minted anew, or is one where a link
is written. -/
def carries (u : Update) (entry : LabelMapEntry) : Bool :=
  entry.isDeclared && !(u.mintsAt entry.path || u.reminted.contains entry.path ||
    u.linkWritten.contains entry.path) && (entry.hasValues || u.claimed entry.path)

def persist (u : Update) (existing : List LabelMapEntry) : List LabelMapEntry :=
  u.minted ++ existing.filter u.carries ++ u.others

end Update

def declaredClauses (entries : List LabelMapEntry) (path : Path) : List FabricValue :=
  (declaredAt entries path).flatMap (·.clauses)

def declaredAtoms (entries : List LabelMapEntry) (path : Path) : List HeldValue :=
  (declaredAt entries path).flatMap (·.atoms)

/-- The declared label of the path holds a clause or an atom. -/
def HoldsValues (entries : List LabelMapEntry) (path : Path) : Prop := storedAt entries path ≠ []

section

variable (texts : Texts) (space docId : JsString)

/-- The check accepts the update, which mints a label wherever it writes a link over one. -/
structure Accepted (existing : List LabelMapEntry) (u : Update) : Prop where
  monotone : collectDeclaredMonotonicityViolations texts space docId existing u.proposedEntries none
    = []
  relabelled : ∀ e ∈ existing, e.isDeclared = true → e.path ∈ u.linkWritten →
    u.mintsAt e.path = true ∨ e.path ∈ u.reminted

def Step (entries entries' : List LabelMapEntry) : Prop :=
  ∃ u : Update, Accepted texts space docId entries u ∧ entries' = u.persist entries

/-- The second clause is at least as strict as the first, as the check compares them. -/
def Tightened (stored proposed : FabricValue) : Prop :=
  Cfc.clauseSubsumes texts.hashStringOf proposed stored = true

/-- Clauses among which subsumption is transitive. -/
structure Comparable (clauses : FabricValue → Prop) : Prop where
  dense : ∀ c, clauses c → Cfc.DenseClause c
  plain : ∀ c, clauses c → ∀ x ∈ Cfc.visitedAlternatives c, ¬Cfc.Disguised texts.hashStringOf x
  level : ∀ c d, clauses c → clauses d → Cfc.LevelClauses c d
  digests : ∀ c d e, clauses c → clauses d → clauses e → Cfc.DigestsDiffer texts.hashStringOf
    (Cfc.clauseParts c ++ Cfc.clauseParts d ++ Cfc.clauseParts e)

end

variable {texts : Texts} {space docId : JsString} {entries entries' : List LabelMapEntry}
  {path : Path}

theorem mem_declaredAt {e : LabelMapEntry} :
    e ∈ declaredAt entries path ↔ e ∈ entries ∧ e.isDeclared = true ∧ e.path = path := by
  rw [declaredAt, List.mem_filter, Bool.and_eq_true, decide_eq_true_iff]

theorem mem_storedAt {e : LabelMapEntry} : e ∈ storedAt entries path ↔
    e ∈ entries ∧ e.isDeclared = true ∧ e.hasValues = true ∧ e.path = path := by
  rw [storedAt, List.mem_filter, Bool.and_eq_true, Bool.and_eq_true, decide_eq_true_iff, and_assoc]

theorem mem_declaredClauses {clause : FabricValue} : clause ∈ declaredClauses entries path ↔
    ∃ e ∈ storedAt entries path, clause ∈ e.clauses := by
  rw [declaredClauses, List.mem_flatMap]
  constructor
  · rintro ⟨e, he, hclause⟩
    obtain ⟨hmem, hdeclared, hpath⟩ := mem_declaredAt.1 he
    have hvalues : e.hasValues = true := by
      cases hclauses : e.clauses with
      | nil => rw [hclauses] at hclause; cases hclause
      | cons => rw [LabelMapEntry.hasValues, hclauses]; rfl
    exact ⟨e, mem_storedAt.2 ⟨hmem, hdeclared, hvalues, hpath⟩, hclause⟩
  · rintro ⟨e, he, hclause⟩
    obtain ⟨hmem, hdeclared, -, hpath⟩ := mem_storedAt.1 he
    exact ⟨e, mem_declaredAt.2 ⟨hmem, hdeclared, hpath⟩, hclause⟩

theorem mem_declaredAtoms {atom : HeldValue} (h : ∃ e ∈ storedAt entries path, atom ∈ e.atoms) :
    atom ∈ declaredAtoms entries path := by
  obtain ⟨e, he, hatom⟩ := h
  obtain ⟨hmem, hdeclared, -, hpath⟩ := mem_storedAt.1 he
  exact List.mem_flatMap.2 ⟨e, mem_declaredAt.2 ⟨hmem, hdeclared, hpath⟩, hatom⟩

section

variable {u : Update}

theorem mem_proposedEntries {e : LabelMapEntry} (h : e ∈ u.proposedEntries) :
    e ∈ u.minted ∨ (e.clauses = [] ∧ e.atoms = []) := by
  rw [Update.proposedEntries, List.mem_append, List.mem_map] at h
  rcases h with h | ⟨p, -, rfl⟩
  · exact .inl h
  · exact .inr ⟨rfl, rfl⟩

/-- The check is given an entry for each path that is minted anew. -/
theorem proposedAt_ne_nil (h : u.mintsAt path = true ∨ path ∈ u.reminted) :
    declaredAt u.proposedEntries path ≠ [] := by
  cases hmints : u.mintsAt path with
  | true =>
    rw [Update.mintsAt, List.any_eq_true] at hmints
    obtain ⟨e, he, hpath⟩ := hmints
    rw [decide_eq_true_iff] at hpath
    exact List.ne_nil_of_mem
      (mem_declaredAt.2 ⟨List.mem_append_left _ he, u.minted_declared e he, hpath⟩)
  | false =>
    rw [hmints] at h
    have hreminted : path ∈ u.reminted.filter (!u.mintsAt ·) := by
      rw [List.mem_filter, hmints]
      exact ⟨h.resolve_left Bool.false_ne_true, rfl⟩
    exact List.ne_nil_of_mem (mem_declaredAt.2
      ⟨List.mem_append_right _ (List.mem_map.2 ⟨path, hreminted, rfl⟩), decide_eq_true rfl, rfl⟩)

theorem untouched_of_nil (h : declaredAt u.proposedEntries path = []) :
    u.mintsAt path = false ∧ path ∉ u.reminted := by
  constructor
  · rw [← Bool.not_eq_true]
    intro hmints
    exact proposedAt_ne_nil (.inl hmints) h
  · intro hmem
    exact proposedAt_ne_nil (.inr hmem) h

/-- A stored clause is kept, or another takes its place that is at least as strict. -/
theorem persist_clause (h : Accepted texts space docId entries u) {clause : FabricValue}
    (hclause : clause ∈ declaredClauses entries path) :
    ∃ clause' ∈ declaredClauses (u.persist entries) path,
      clause' = clause ∨ Tightened texts clause clause' := by
  obtain ⟨e, he, hmem⟩ := mem_declaredClauses.1 hclause
  by_cases hproposed : declaredAt u.proposedEntries path = []
  · obtain ⟨hmints, hreminted⟩ := untouched_of_nil hproposed
    obtain ⟨hstored, hdeclared, hvalues, rfl⟩ := mem_storedAt.1 he
    have hlink : e.path ∉ u.linkWritten := by
      intro hlink
      rcases h.relabelled e hstored hdeclared hlink with h | h
      · rw [hmints] at h; cases h
      · exact hreminted h
    have hcarries : u.carries e = true := by
      simp [Update.carries, hdeclared, hmints, hreminted, hlink, hvalues]
    refine ⟨clause, mem_declaredClauses.2 ⟨e, mem_storedAt.2 ⟨?_, hdeclared, hvalues, rfl⟩, hmem⟩, .inl rfl⟩
    exact List.mem_append_left _ (List.mem_append_right _ (List.mem_filter.2 ⟨hstored, hcarries⟩))
  · have hne : storedAt entries path ≠ [] := List.ne_nil_of_mem he
    have hwitnessed := (violations_eq_nil_iff.1 h.monotone path hproposed hne).1 e he clause hmem
    rcases hwitnessed with hwitnessed | hexempt
    · rw [witnessed, List.any_eq_true] at hwitnessed
      obtain ⟨clause', hclause', hsubsumes⟩ := hwitnessed
      obtain ⟨e', he', hmem'⟩ := List.mem_flatMap.1 hclause'
      obtain ⟨hproposal, hdeclared, hpath⟩ := mem_declaredAt.1 he'
      rcases mem_proposedEntries hproposal with hminted | ⟨hnone, -⟩
      · refine ⟨clause', List.mem_flatMap.2 ⟨e', mem_declaredAt.2 ⟨?_, hdeclared, hpath⟩, hmem'⟩,
          .inr hsubsumes⟩
        exact List.mem_append_left _ (List.mem_append_left _ hminted)
      · rw [hnone] at hmem'; cases hmem'
    · cases hexempt

/-- Where the label of a path holds something, an update adds no atom to it. -/
theorem persist_atom (h : Accepted texts space docId entries u) (hvalues : HoldsValues entries path)
    {atom : HeldValue} (hatom : atom ∈ declaredAtoms (u.persist entries) path) :
    ∃ atom' ∈ declaredAtoms entries path, HeldValue.deepEquals atom' atom = true := by
  obtain ⟨e, he, hmem⟩ := List.mem_flatMap.1 hatom
  obtain ⟨hpersisted, hdeclared, hpath⟩ := mem_declaredAt.1 he
  rw [Update.persist, List.mem_append, List.mem_append] at hpersisted
  rcases hpersisted with (hminted | hcarried) | hother
  · have hproposed : e ∈ declaredAt u.proposedEntries path :=
      mem_declaredAt.2 ⟨List.mem_append_left _ hminted, hdeclared, hpath⟩
    obtain ⟨e', he', atom', hatom', hequal⟩ := (violations_eq_nil_iff.1 h.monotone path
      (List.ne_nil_of_mem hproposed) hvalues).2 e hproposed atom hmem
    exact ⟨atom', mem_declaredAtoms ⟨e', he', hatom'⟩, hequal⟩
  · have hstored := (List.mem_filter.1 hcarried).1
    refine ⟨atom, List.mem_flatMap.2 ⟨e, mem_declaredAt.2 ⟨hstored, hdeclared, hpath⟩, hmem⟩, ?_⟩
    exact HeldValue.deepEquals_iff.2 (.refl atom)
  · rw [u.others_not_declared e hother] at hdeclared
    cases hdeclared

end

variable {states : Nat → List LabelMapEntry} {n : Nat}

/-- The clauses a path declares between two points of a run. -/
def DeclaredBetween (states : Nat → List LabelMapEntry) (path : Path) (i j : Nat)
    (clause : FabricValue) : Prop :=
  ∃ k, i ≤ k ∧ k ≤ j ∧ clause ∈ declaredClauses (states k) path

theorem Comparable.mono {p q : FabricValue → Prop} (h : Comparable texts q)
    (hsub : ∀ c, p c → q c) : Comparable texts p where
  dense c hc := h.dense c (hsub c hc)
  plain c hc := h.plain c (hsub c hc)
  level c d hc hd := h.level c d (hsub c hc) (hsub d hd)
  digests c d e hc hd he := h.digests c d e (hsub c hc) (hsub d hd) (hsub e he)

theorem Comparable.trans {p : FabricValue → Prop} (h : Comparable texts p) {a b c : FabricValue}
    (ha : p a) (hb : p b) (hc : p c) (hab : Tightened texts a b) (hbc : Tightened texts b c) :
    Tightened texts a c :=
  Cfc.clauseSubsumes_trans (h.dense c hc) (h.dense b hb) (h.dense a ha) (h.level c b hc hb)
    (h.level b a hb ha) (h.level c a hc ha) (h.digests c b a hc hb ha) (h.plain c hc)
    (h.plain a ha) hbc hab

section

variable (hrun : ∀ k < n, Step texts space docId (states k) (states (k + 1)))
include hrun

/-- A declared clause is witnessed later in the run, by one reached from it step by step; and
directly where the clauses of the path are comparable. -/
theorem clause_kept {i j : Nat} (hij : i ≤ j) (hjn : j ≤ n) {clause : FabricValue}
    (hclause : clause ∈ declaredClauses (states i) path) :
    ∃ clause' ∈ declaredClauses (states j) path, ReflTransGen (Tightened texts) clause clause' ∧
      (Comparable texts (DeclaredBetween states path i j) →
        clause' = clause ∨ Tightened texts clause clause') := by
  induction j, hij using Nat.le_induction with
  | base => exact ⟨clause, hclause, .refl, fun _ => .inl rfl⟩
  | succ j hij ih =>
    obtain ⟨clause', hclause', hchain, hdirect⟩ := ih (by omega)
    obtain ⟨u, haccepted, hstate⟩ := hrun j (by omega)
    obtain ⟨last, hlast, hstep⟩ := persist_clause haccepted hclause'
    rw [← hstate] at hlast
    refine ⟨last, hlast, ?_, fun hcomparable => ?_⟩
    · rcases hstep with rfl | hstep
      · exact hchain
      · exact hchain.tail hstep
    · have hsub : ∀ c, DeclaredBetween states path i j c → DeclaredBetween states path i (j + 1) c := by
        rintro c ⟨k, hik, hkj, hc⟩
        exact ⟨k, hik, by omega, hc⟩
      rcases hstep with rfl | hstep
      · exact hdirect (hcomparable.mono hsub)
      · right
        rcases hdirect (hcomparable.mono hsub) with rfl | hdirect
        · exact hstep
        · exact hcomparable.trans ⟨i, le_refl i, by omega, hclause⟩ ⟨j, hij, by omega, hclause'⟩
            ⟨j + 1, by omega, le_refl _, hlast⟩ hdirect hstep

/-- A path that declares a clause declares one ever after. -/
theorem holdsValues_of_clause {i j : Nat} (hij : i ≤ j) (hjn : j ≤ n)
    (h : declaredClauses (states i) path ≠ []) : HoldsValues (states j) path := by
  obtain ⟨clause, hclause⟩ := List.exists_mem_of_ne_nil _ h
  obtain ⟨clause', hclause', -⟩ := clause_kept hrun hij hjn hclause
  obtain ⟨e, he, -⟩ := mem_declaredClauses.1 hclause'
  exact List.ne_nil_of_mem he

/-- No atom is added as long as the label holds something at each point before. -/
theorem atom_kept {i j : Nat} (hij : i ≤ j) (hjn : j ≤ n)
    (hvalues : ∀ k, i ≤ k → k < j → HoldsValues (states k) path) {atom : HeldValue}
    (hatom : atom ∈ declaredAtoms (states j) path) :
    ∃ atom' ∈ declaredAtoms (states i) path, HeldValue.deepEquals atom' atom = true := by
  induction j, hij using Nat.le_induction generalizing atom with
  | base => exact ⟨atom, hatom, HeldValue.deepEquals_iff.2 (.refl atom)⟩
  | succ j hij ih =>
    obtain ⟨u, haccepted, hstate⟩ := hrun j (by omega)
    rw [hstate] at hatom
    obtain ⟨atom', hatom', hequal⟩ := persist_atom haccepted (hvalues j hij (by omega)) hatom
    obtain ⟨first, hfirst, hequal'⟩ := ih (by omega) (fun k hik hkj => hvalues k hik (by omega)) hatom'
    rw [HeldValue.deepEquals_iff] at hequal hequal'
    exact ⟨first, hfirst, HeldValue.deepEquals_iff.2 (hequal'.trans hequal)⟩

end

/-- Over a run of accepted updates every declared clause stays witnessed, and no integrity atom is
added to a label that is never left empty; an exemption frees the clause it names, and no more. -/
theorem declared_labels_tighten (texts : Texts) (space docId : JsString)
    (states : Nat → List LabelMapEntry) (n : Nat)
    (hrun : ∀ k < n, Step texts space docId (states k) (states (k + 1))) :
    (∀ i j path, i ≤ j → j ≤ n → ∀ clause ∈ declaredClauses (states i) path,
      ∃ clause' ∈ declaredClauses (states j) path, ReflTransGen (Tightened texts) clause clause' ∧
        (Comparable texts (DeclaredBetween states path i j) →
          clause' = clause ∨ Tightened texts clause clause')) ∧
    (∀ i j path, i ≤ j → j ≤ n → (declaredClauses (states i) path ≠ [] ∨
        ∀ k, i ≤ k → k < j → HoldsValues (states k) path) →
      ∀ atom ∈ declaredAtoms (states j) path, ∃ atom' ∈ declaredAtoms (states i) path,
        HeldValue.deepEquals atom' atom = true) ∧
    ∀ stored proposed (exemption : DeclaredWideningExemption),
      collectDeclaredMonotonicityViolations texts space docId stored proposed (some exemption) = [] ↔
        ∀ path, declaredAt proposed path ≠ [] → storedAt stored path ≠ [] →
          (∀ e ∈ storedAt stored path, ∀ clause ∈ e.clauses,
            (∃ clause' ∈ declaredClauses proposed path, Tightened texts clause clause') ∨
              (exemption.space = space ∧ exemption.id = docId ∧ exemption.path = path ∧
                exemption.clauseDigest = Cfc.cfcCanonicalClauseDigest texts.hashStringOf clause)) ∧
          ∀ e ∈ declaredAt proposed path, ∀ atom ∈ e.atoms, ∃ e' ∈ storedAt stored path,
            ∃ atom' ∈ e'.atoms, HeldValue.deepEquals atom' atom = true := by
  refine ⟨fun i j path hij hjn clause hclause => clause_kept hrun hij hjn hclause,
    fun i j path hij hjn hvalues atom hatom => ?_, fun stored proposed exemption => ?_⟩
  · apply atom_kept hrun hij hjn _ hatom
    rcases hvalues with hvalues | hvalues
    · intro k hik hkj
      exact holdsValues_of_clause hrun hik (by omega) hvalues
    · exact hvalues
  · rw [violations_eq_nil_iff]
    simp only [witnessed, exempts, declaredClauses, Tightened, List.any_eq_true, Option.any_some,
      Bool.and_eq_true, decide_eq_true_iff, and_assoc]

/-- An update that mints the root's label anew, or no label there. -/
def Update.relabel (label : Option IFCLabel) : Update where
  minted := label.toList.map fun label => ⟨[], label, some DECLARED⟩
  minted_declared := by
    intro e he
    obtain ⟨label, -, rfl⟩ := List.mem_map.1 he
    exact decide_eq_true rfl
  reminted := [[]]
  claimed _ := false
  linkWritten := []
  others := []
  others_not_declared _ h := by cases h

def sampleTexts : Texts where
  hashStringOf := Cfc.digestAmong Cfc.sampleValues
  hashOfAtom _ := ⟨[]⟩
  stringifyClause _ := ⟨[]⟩
  stringifyAtom _ := ⟨[]⟩

theorem accepted_relabel {texts : Texts} {space docId : JsString} {entries : List LabelMapEntry}
    {label : Option IFCLabel}
    (h : (collectDeclaredMonotonicityViolations texts space docId entries
      (Update.relabel label).proposedEntries none).isEmpty = true) :
    Accepted texts space docId entries (.relabel label) :=
  ⟨List.isEmpty_iff.1 h, fun _ _ _ hlink => by cases hlink⟩

/-- Bob's reading, or Alice's, or a deadline, that is narrowed in two updates. -/
def narrowedClauses : List FabricValue :=
  let bob := Cfc.userAtom (.string "bob")
  [Cfc.orClause [bob, Cfc.userAtom (.string "alice"), Cfc.deadline (.finite 7)],
    Cfc.orClause [bob, Cfc.deadline (.finite 5)], Cfc.deadline (.finite 3)]

def narrowedTexts : Texts :=
  { sampleTexts with hashStringOf := Cfc.digestAmong (narrowedClauses.flatMap Cfc.clauseParts) }

/-- The label of each update: one clause, and an atom the less after the first. -/
def narrowedLabel (k : Nat) : Update :=
  .relabel (some ⟨some (narrowedClauses[k]?).toList,
    some (if k = 0 then [.string "reviewed", .string "signed"] else [.string "signed"])⟩)

def narrowedStates : Nat → List LabelMapEntry
  | 0 => (narrowedLabel 0).persist []
  | k + 1 => (narrowedLabel (k + 1)).persist (narrowedStates k)

theorem declared_labels_tighten_user :
    (∃ clause ∈ declaredClauses (narrowedStates 2) [], clause = narrowedClauses[0] ∨
      Tightened narrowedTexts narrowedClauses[0] clause) ∧
    ∀ atom ∈ declaredAtoms (narrowedStates 2) [], ∃ atom' ∈ declaredAtoms (narrowedStates 0) [],
      HeldValue.deepEquals atom' atom = true := by
  have hruns : (∀ k < 2, (collectDeclaredMonotonicityViolations narrowedTexts "space" "doc"
        (narrowedStates k) (narrowedLabel (k + 1)).proposedEntries none).isEmpty = true) ∧
      (∀ k ≤ 2, declaredClauses (narrowedStates k) [] = (narrowedClauses[k]?).toList) ∧
      (∀ c ∈ narrowedClauses, ∀ x ∈ Cfc.clauseReadings c, Cfc.isDense x = true ∧
        Cfc.containsCfcFieldCommitment x = false ∧ (Cfc.isRead x = true ∨
          x ∈ [Cfc.userAtom (.string "bob"), Cfc.userAtom (.string "alice")])) ∧
      Cfc.DigestsDiffer narrowedTexts.hashStringOf (narrowedClauses.flatMap Cfc.clauseParts) := by
    decide +kernel
  obtain ⟨haccepted, hdeclared, hread, hdigests⟩ := hruns
  have hrun : ∀ k < 2, Step narrowedTexts "space" "doc" (narrowedStates k)
      (narrowedStates (k + 1)) := fun k hk => ⟨_, accepted_relabel (haccepted k hk), rfl⟩
  have hmem : ∀ c, DeclaredBetween narrowedStates [] 0 2 c → c ∈ narrowedClauses := by
    rintro c ⟨k, -, hk, hc⟩
    rw [hdeclared k hk] at hc
    exact List.mem_of_getElem? (Option.mem_toList.1 hc)
  have hself : ∀ c, ∀ x ∈ Cfc.visitedAlternatives c, x ∈ Cfc.clauseReadings c := fun c x hx =>
    Cfc.mem_clauseReadings hx (Cfc.mem_readings.2 (.inl rfl))
  have hcomparable : Comparable narrowedTexts (DeclaredBetween narrowedStates [] 0 2) := {
    dense := fun c hc x hx => (hread c (hmem c hc) x (hself c x hx)).1
    plain := by
      intro c hc x hx hdisguised
      rcases (hread c (hmem c hc) x (hself c x hx)).2.2 with hisRead | huser
      · rw [hdisguised.1] at hisRead
        cases hisRead
      · rcases List.mem_pair.1 huser with rfl | rfl
        · exact Cfc.not_disguised_userAtom rfl hdisguised
        · exact Cfc.not_disguised_userAtom rfl hdisguised
    level := fun c _ hc _ u hu _ _ => Cfc.level_of_plain (hread c (hmem c hc) u hu).2.1
    digests := by
      intro c d e hc hd he
      refine hdigests.mono fun v hv => List.mem_flatMap.2 ?_
      rcases List.mem_append.1 hv with hv | hv
      · rcases List.mem_append.1 hv with hv | hv
        · exact ⟨c, hmem c hc, hv⟩
        · exact ⟨d, hmem d hd, hv⟩
      · exact ⟨e, hmem e he, hv⟩ }
  have hfirst : declaredClauses (narrowedStates 0) [] = [narrowedClauses[0]] :=
    hdeclared 0 (Nat.zero_le 2)
  have htightens := declared_labels_tighten narrowedTexts "space" "doc" narrowedStates 2 hrun
  obtain ⟨clause, hclause, -, hdirect⟩ := htightens.1 0 2 [] (by decide) (by decide)
    narrowedClauses[0] (hfirst ▸ List.mem_singleton_self _)
  exact ⟨⟨clause, hclause, hdirect hcomparable⟩, htightens.2.1 0 2 [] (by decide) (by decide)
    (.inl (hfirst ▸ List.cons_ne_nil _ _))⟩

/-- A label that is emptied may be declared again with an atom it lacked; and a clause that is
tightened twice may end as one that does not subsume it, without a collision of digests. -/
theorem emptied_label_regains_atom :
    (let first := (Update.relabel (some ⟨none, some [.string "reviewed"]⟩)).persist []
      let second := (Update.relabel none).persist first
      let third := (Update.relabel (some ⟨none, some [.string "approved"]⟩)).persist second
      Accepted sampleTexts "space" "doc" first (.relabel none) ∧
        Accepted sampleTexts "space" "doc" second
          (.relabel (some ⟨none, some [.string "approved"]⟩)) ∧
        declaredAtoms first [] = [.string "reviewed"] ∧
        declaredAtoms third [] = [.string "approved"] ∧
        HeldValue.deepEquals (.string "reviewed") (.string "approved") = false) ∧
    (let digest := Cfc.digestAmong Cfc.sampleValues
      let user := Cfc.userAtom (.string "bob")
      let nested := Cfc.caveatAtom (Cfc.transformClause digest user)
      let plain := Cfc.caveatAtom user
      let whole := Cfc.transformClause digest plain
      let first := (Update.relabel (some ⟨some [nested], none⟩)).persist []
      let second := (Update.relabel (some ⟨some [plain], none⟩)).persist first
      let third := (Update.relabel (some ⟨some [whole], none⟩)).persist second
      Accepted sampleTexts "space" "doc" first (.relabel (some ⟨some [plain], none⟩)) ∧
        Accepted sampleTexts "space" "doc" second (.relabel (some ⟨some [whole], none⟩)) ∧
        declaredClauses first [] = [nested] ∧ declaredClauses third [] = [whole] ∧
        Cfc.clauseSubsumes digest whole nested = false ∧
        Cfc.DigestsDiffer digest (Cfc.clauseParts whole ++ Cfc.clauseParts plain ++
          Cfc.clauseParts nested)) := by
  refine ⟨⟨accepted_relabel (by decide +kernel), accepted_relabel (by decide +kernel),
    by decide +kernel, by decide +kernel, by decide +kernel⟩,
    accepted_relabel (by decide +kernel), accepted_relabel (by decide +kernel), by decide +kernel,
    by decide +kernel, by decide +kernel, by decide +kernel⟩

end DeclaredLabels
