import CommonFabric.RoutedLanguage

/-!
# The scan of a routed frame ends

A scan that ran out of nested calls is told apart from one that refused its text. With calls enough
for a text no scan runs out, and what it comes to is what the bounded scan comes to.
-/

/-- What a scan comes to. -/
inductive Scan (α : Type) where
  | unfinished
  | denied
  | done (a : α)

namespace Scan

variable {α β : Type}

def ofOption : Option α → Scan α
  | none => .denied
  | some a => .done a

def toOption : Scan α → Option α
  | .done a => some a
  | _ => none

def bind (x : Scan α) (f : α → Scan β) : Scan β :=
  match x with
  | .unfinished => .unfinished
  | .denied => .denied
  | .done a => f a

@[simp] theorem toOption_ofOption (x : Option α) : (ofOption x).toOption = x := by
  cases x <;> rfl

@[simp] theorem toOption_bind (x : Scan α) (f : α → Scan β) :
    (x.bind f).toOption = x.toOption.bind fun a => (f a).toOption := by
  cases x <;> rfl

theorem eq_ofOption {x : Scan α} (h : x ≠ .unfinished) : x = ofOption x.toOption := by
  cases x with
  | unfinished => exact absurd rfl h
  | denied => rfl
  | done a => rfl

end Scan

namespace RoutedJson

open JsonText

mutual
/-- `scanValue`, where running out of calls is no refusal. -/
def valueSteps (maxSlots : Option Nat) : Nat → Nat → Nat → List UInt16 →
    Scan (Nat × List UInt16)
  | 0, _, _, _ => .unfinished
  | fuel + 1, depth, slots, text =>
    (Scan.ofOption (countSlot maxSlots depth slots)).bind fun slots =>
      match skipSpace text with
      | [] => .denied
      | u :: rest =>
        if u = unit '"' then
          Scan.ofOption ((scanString (u :: rest)).map fun (_, rest) => (slots, rest))
        else if u = unit '\x7b' then
          if (skipSpace rest).head? = some (unit '\x7d') then .done (slots, (skipSpace rest).tail)
          else membersSteps maxSlots fuel depth slots [] rest
        else if u = unit '[' then
          if (skipSpace rest).head? = some (unit ']') then .done (slots, (skipSpace rest).tail)
          else itemsSteps maxSlots fuel depth slots rest
        else Scan.ofOption ((scanScalar (u :: rest)).map fun rest => (slots, rest))

def itemsSteps (maxSlots : Option Nat) : Nat → Nat → Nat → List UInt16 →
    Scan (Nat × List UInt16)
  | 0, _, _, _ => .unfinished
  | fuel + 1, depth, slots, text =>
    (valueSteps maxSlots fuel (depth + 1) slots text).bind fun (slots, rest) =>
      match skipSpace rest with
      | [] => .denied
      | u :: rest =>
        if u = unit ']' then .done (slots, rest)
        else if u = unit ',' then itemsSteps maxSlots fuel depth slots rest
        else .denied

def membersSteps (maxSlots : Option Nat) : Nat → Nat → Nat → List JsString → List UInt16 →
    Scan (Nat × List UInt16)
  | 0, _, _, _, _ => .unfinished
  | fuel + 1, depth, slots, keys, text =>
    (Scan.ofOption (scanString (skipSpace text))).bind fun (key, rest) =>
      if key ∈ keys ∨ key ∈ forbiddenKeys then .denied
      else
        match skipSpace rest with
        | [] => .denied
        | u :: rest =>
          if u ≠ unit ':' then .denied
          else
            (valueSteps maxSlots fuel (depth + 1) slots rest).bind fun (slots, rest) =>
              match skipSpace rest with
              | [] => .denied
              | u :: rest =>
                if u = unit '\x7d' then .done (slots, rest)
                else if u = unit ',' then membersSteps maxSlots fuel depth slots (key :: keys) rest
                else .denied
end

/-- `parseRoutedJson` with so many nested calls. -/
def parseSteps (fuel : Nat) (source : List UInt16) (maxSlots : Option Nat) : Scan Json :=
  if isSlotCap maxSlots = false then .denied
  else if ROUTED_EXPANDED_LIMIT < source.length then .denied
  else (valueSteps maxSlots fuel 0 0 source).bind fun (_, rest) =>
    if skipSpace rest = [] then Scan.ofOption (parse source) else .denied

theorem toOption_steps (maxSlots : Option Nat) (fuel : Nat) :
    (∀ depth slots text, (valueSteps maxSlots fuel depth slots text).toOption =
      scanValue maxSlots fuel depth slots text) ∧
    (∀ depth slots text, (itemsSteps maxSlots fuel depth slots text).toOption =
      scanItems maxSlots fuel depth slots text) ∧
    ∀ depth slots keys text, (membersSteps maxSlots fuel depth slots keys text).toOption =
      scanMembers maxSlots fuel depth slots keys text := by
  induction fuel with
  | zero =>
    refine ⟨fun _ _ _ => ?_, fun _ _ _ => ?_, fun _ _ _ _ => ?_⟩
    · rw [valueSteps, scanValue]
      rfl
    · rw [itemsSteps, scanItems]
      rfl
    · rw [membersSteps, scanMembers]
      rfl
  | succ fuel ih =>
    obtain ⟨ihValue, ihItems, ihMembers⟩ := ih
    refine ⟨fun depth slots text => ?_, fun depth slots text => ?_,
      fun depth slots keys text => ?_⟩
    · rw [valueSteps, scanValue, Scan.toOption_bind, Scan.toOption_ofOption]
      apply Option.bind_congr
      intro slots _
      cases skipSpace text with
      | nil => rfl
      | cons u rest =>
        dsimp only
        split
        · exact Scan.toOption_ofOption _
        split
        · split
          · rfl
          · exact ihMembers _ _ _ _
        split
        · split
          · rfl
          · exact ihItems _ _ _
        exact Scan.toOption_ofOption _
    · rw [itemsSteps, scanItems, Scan.toOption_bind, ihValue]
      apply Option.bind_congr
      intro r _
      dsimp only
      cases skipSpace r.2 with
      | nil => rfl
      | cons u rest =>
        dsimp only
        split
        · rfl
        split
        · exact ihItems _ _ _
        · rfl
    · rw [membersSteps, scanMembers, Scan.toOption_bind, Scan.toOption_ofOption]
      apply Option.bind_congr
      intro r _
      dsimp only
      split
      · rfl
      cases skipSpace r.2 with
      | nil => rfl
      | cons u rest =>
        dsimp only
        split
        · rfl
        rw [Scan.toOption_bind, ihValue]
        apply Option.bind_congr
        intro r' _
        cases skipSpace r'.2 with
        | nil => rfl
        | cons u rest =>
          dsimp only
          split
          · rfl
          split
          · exact ihMembers _ _ _ _
          · rfl

/-- A scan that ends, and leaves no more than so many units. -/
def Ends (x : Scan (Nat × List UInt16)) (n : Nat) : Prop :=
  x ≠ .unfinished ∧ ∀ slots rest, x = .done (slots, rest) → rest.length ≤ n

theorem ends_denied (n : Nat) : Ends .denied n :=
  ⟨fun h => (by cases h), fun _ _ h => (by cases h)⟩

variable {rest text source : List UInt16} {fuel : Nat} {maxSlots : Option Nat}

theorem ends_done {slots n : Nat} (h : rest.length ≤ n) :
    Ends (.done (slots, rest)) n := by
  constructor
  · intro heq
    cases heq
  · intro _ _ heq
    cases heq
    exact h

theorem Ends.mono {x : Scan (Nat × List UInt16)} {m n : Nat} (h : Ends x m) (hmn : m ≤ n) :
    Ends x n :=
  ⟨h.1, fun slots rest heq => Nat.le_trans (h.2 slots rest heq) hmn⟩

theorem Ends.bind {x : Scan (Nat × List UInt16)} {f : Nat × List UInt16 → Scan (Nat × List UInt16)}
    {m n : Nat} (h : Ends x m) (hf : ∀ slots rest, rest.length ≤ m → Ends (f (slots, rest)) n) :
    Ends (x.bind f) n := by
  cases x with
  | unfinished => exact absurd rfl h.1
  | denied => exact ends_denied n
  | done r => exact hf r.1 r.2 (h.2 _ _ rfl)

theorem ends_ofOption_bind {α : Type} {x : Option α} {f : α → Scan (Nat × List UInt16)} {n : Nat}
    (hf : ∀ a, x = some a → Ends (f a) n) : Ends ((Scan.ofOption x).bind f) n := by
  cases x with
  | none => exact ends_denied n
  | some a => exact hf a rfl

theorem length_skipSpace (text : List UInt16) : (skipSpace text).length ≤ text.length :=
  List.length_dropWhile_le _ _

theorem length_of_skipSpace {u : UInt16} (h : skipSpace text = u :: rest) :
    rest.length < text.length := by
  have hle := length_skipSpace text
  rw [h, List.length_cons] at hle
  omega

theorem length_of_scanString {s : JsString}
    (h : scanString text = some (s, rest)) : rest.length < text.length := by
  cases text with
  | nil => cases h
  | cons u text =>
    by_cases hquote : u = unit '"'
    · rw [hquote] at h
      obtain ⟨hunits, -⟩ := (scanString_iff _ _ _).1 h
      obtain ⟨slice, rfl, -⟩ := sliceOf_parseUnits hunits
      rw [List.length_cons, List.length_append]
      omega
    · rw [scanString, if_pos hquote] at h
      cases h

theorem length_of_scanScalar (h : scanScalar text = some rest) :
    rest.length ≤ text.length := by
  rw [scanScalar_eq] at h
  split at h
  · split at h
    · cases h
      exact List.length_dropWhile_le _ _
    · cases h
  · cases h

/-- What stands after an element, where what follows a comma ends. -/
theorem ends_element {close : UInt16} {slots n : Nat}
    {scanMore : List UInt16 → Scan (Nat × List UInt16)} (hn : rest.length ≤ n)
    (hmore : ∀ more, more.length < n → Ends (scanMore more) n) :
    Ends (match skipSpace rest with
      | [] => .denied
      | u :: rest =>
        if u = close then .done (slots, rest)
        else if u = unit ',' then scanMore rest
        else .denied) n := by
  cases hskip : skipSpace rest with
  | nil => exact ends_denied n
  | cons u more =>
    have hlength := length_of_skipSpace hskip
    dsimp only
    split
    · exact ends_done (by omega)
    split
    · exact hmore more (by omega)
    · exact ends_denied n

theorem steps_end (maxSlots : Option Nat) (fuel : Nat) :
    (∀ depth slots text, 2 * text.length + 1 ≤ fuel →
      Ends (valueSteps maxSlots fuel depth slots text) text.length) ∧
    (∀ depth slots text, 2 * text.length + 2 ≤ fuel →
      Ends (itemsSteps maxSlots fuel depth slots text) text.length) ∧
    ∀ depth slots keys text, 2 * text.length + 2 ≤ fuel →
      Ends (membersSteps maxSlots fuel depth slots keys text) text.length := by
  induction fuel with
  | zero =>
    refine ⟨?_, ?_, ?_⟩
    · intro depth slots text h
      omega
    · intro depth slots text h
      omega
    · intro depth slots keys text h
      omega
  | succ fuel ih =>
    obtain ⟨ihValue, ihItems, ihMembers⟩ := ih
    refine ⟨fun depth slots text hfuel => ?_, fun depth slots text hfuel => ?_,
      fun depth slots keys text hfuel => ?_⟩
    · rw [valueSteps]
      apply ends_ofOption_bind
      intro slots _
      cases hskip : skipSpace text with
      | nil => exact ends_denied _
      | cons u rest =>
        have hlength := length_of_skipSpace hskip
        have htail : (skipSpace rest).tail.length ≤ text.length := by
          have hle := length_skipSpace rest
          rw [List.length_tail]
          omega
        dsimp only
        split
        · cases hstring : scanString (u :: rest) with
          | none => exact ends_denied _
          | some r =>
            have hrest := length_of_scanString hstring
            rw [List.length_cons] at hrest
            exact ends_done (by omega)
        split
        · split
          · exact ends_done htail
          · exact (ihMembers depth slots [] rest (by omega)).mono (by omega)
        split
        · split
          · exact ends_done htail
          · exact (ihItems depth slots rest (by omega)).mono (by omega)
        cases hscalar : scanScalar (u :: rest) with
        | none => exact ends_denied _
        | some left =>
          have hrest := length_of_scanScalar hscalar
          rw [List.length_cons] at hrest
          exact ends_done (by omega)
    · rw [itemsSteps]
      apply (ihValue (depth + 1) slots text (by omega)).bind
      intro slots rest hrest
      exact ends_element hrest fun more hmore =>
        (ihItems depth slots more (by omega)).mono (by omega)
    · rw [membersSteps]
      apply ends_ofOption_bind
      intro r hstring
      have hrest := length_of_scanString hstring
      have hle := length_skipSpace text
      dsimp only
      split
      · exact ends_denied _
      cases hskip : skipSpace r.2 with
      | nil => exact ends_denied _
      | cons u more =>
        have hlength := length_of_skipSpace hskip
        dsimp only
        split
        · exact ends_denied _
        apply (ihValue (depth + 1) slots more (by omega)).bind
        intro slots rest hmore
        refine (ends_element hmore fun after hafter => ?_).mono (by omega)
        exact (ihMembers depth slots _ after (by omega)).mono (by omega)

/-- A reader that takes something, and takes the same with as many calls as what it takes has
units. -/
def Enough {α : Type} (read : Nat → List UInt16 → Option (α × List UInt16)) (fuel : Nat) : Prop :=
  ∀ text a rest, read fuel text = some (a, rest) → rest.length < text.length ∧
    ∀ fuel', text.length ≤ fuel' + rest.length → read fuel' text = some (a, rest)

theorem length_of_parseUnits {units : List UInt16}
    (h : parseUnits text = some (units, rest)) : rest.length < text.length := by
  obtain ⟨slice, rfl, hboth⟩ := sliceOf_parseUnits h
  cases slice with
  | nil => exact absurd (hboth []).1 (by decide)
  | cons u slice =>
    rw [List.length_append, List.length_cons]
    omega

theorem length_of_readScalar {tree : WrittenJson}
    (h : readScalar text = some (tree, rest)) : rest.length < text.length := by
  obtain ⟨used, rfl, -, hmore⟩ := takes_readScalar _ _ _ h
  cases used with
  | nil =>
    have halone := hmore [] (.inl fun v hv => by cases hv)
    rw [List.nil_append, readScalar_nil] at halone
    cases halone
  | cons u used =>
    rw [List.length_append, List.length_cons]
    omega

theorem readValue_enough (hitems : Enough readItems fuel)
    (hmembers : Enough readMembers fuel) : Enough readValue (fuel + 1) := by
  intro text tree rest h
  rw [readValue] at h
  cases hskip : skipSpace text with
  | nil =>
    rw [hskip] at h
    cases h
  | cons u more =>
    have hlength := length_of_skipSpace hskip
    rw [hskip] at h
    dsimp only at h
    have hresult : rest.length < (u :: more).length ∧
        ∀ fuel', text.length ≤ fuel' + 1 + rest.length →
          readValue (fuel' + 1) text = some (tree, rest) := by
      by_cases hquote : u = unit '"'
      · rw [if_pos hquote] at h
        obtain ⟨r, hunits, heq⟩ := Option.map_eq_some_iff.1 h
        cases heq
        have hless := length_of_parseUnits hunits
        refine ⟨by rw [List.length_cons]; omega, fun fuel' _ => ?_⟩
        rw [readValue, hskip]
        dsimp only
        rw [if_pos hquote, hunits]
        rfl
      rw [if_neg hquote] at h
      by_cases hbracket : u = unit '['
      · rw [if_pos hbracket] at h
        by_cases hempty : (skipSpace more).head? = some (unit ']')
        · rw [if_pos hempty] at h
          cases h
          have hle := length_skipSpace more
          refine ⟨by rw [List.length_tail, List.length_cons]; omega, fun fuel' _ => ?_⟩
          rw [readValue, hskip]
          dsimp only
          rw [if_neg hquote, if_pos hbracket, if_pos hempty]
        · rw [if_neg hempty] at h
          obtain ⟨r, hread, heq⟩ := Option.map_eq_some_iff.1 h
          cases heq
          obtain ⟨hless, hmore⟩ := hitems _ _ _ hread
          refine ⟨by rw [List.length_cons]; omega, fun fuel' hfuel => ?_⟩
          rw [readValue, hskip]
          dsimp only
          rw [if_neg hquote, if_pos hbracket, if_neg hempty, hmore fuel' (by omega)]
          rfl
      rw [if_neg hbracket] at h
      by_cases hbrace : u = unit '\x7b'
      · rw [if_pos hbrace] at h
        by_cases hempty : (skipSpace more).head? = some (unit '\x7d')
        · rw [if_pos hempty] at h
          cases h
          have hle := length_skipSpace more
          refine ⟨by rw [List.length_tail, List.length_cons]; omega, fun fuel' _ => ?_⟩
          rw [readValue, hskip]
          dsimp only
          rw [if_neg hquote, if_neg hbracket, if_pos hbrace, if_pos hempty]
        · rw [if_neg hempty] at h
          obtain ⟨r, hread, heq⟩ := Option.map_eq_some_iff.1 h
          cases heq
          obtain ⟨hless, hmore⟩ := hmembers _ _ _ hread
          refine ⟨by rw [List.length_cons]; omega, fun fuel' hfuel => ?_⟩
          rw [readValue, hskip]
          dsimp only
          rw [if_neg hquote, if_neg hbracket, if_pos hbrace, if_neg hempty,
            hmore fuel' (by omega)]
          rfl
      rw [if_neg hbrace] at h
      refine ⟨length_of_readScalar h, fun fuel' _ => ?_⟩
      rw [readValue, hskip]
      dsimp only
      rw [if_neg hquote, if_neg hbracket, if_neg hbrace, h]
    rw [List.length_cons] at hresult
    refine ⟨by omega, fun fuel' hfuel => ?_⟩
    cases fuel' with
    | zero => omega
    | succ fuel' => exact hresult.2 fuel' hfuel

/-- What stands after an element is read with as many calls as it has units. -/
theorem element_enough {α : Type} {close : UInt16} (hvalue : Enough readValue fuel)
    {readMore : Nat → List UInt16 → Option (List α × List UInt16)} (hread : Enough readMore fuel)
    (element : WrittenJson → α) {elements : List α}
    (h : ((readValue fuel text).bind fun (tree, rest) =>
        match skipSpace rest with
        | [] => none
        | u :: rest =>
          if u = close then some ([element tree], rest)
          else if u = unit ',' then
            (readMore fuel rest).map fun (elements, rest) => (element tree :: elements, rest)
          else none) = some (elements, rest)) :
    rest.length + 1 < text.length ∧ ∀ fuel', text.length ≤ fuel' + 1 + rest.length →
      ((readValue fuel' text).bind fun (tree, rest) =>
        match skipSpace rest with
        | [] => none
        | u :: rest =>
          if u = close then some ([element tree], rest)
          else if u = unit ',' then
            (readMore fuel' rest).map fun (elements, rest) => (element tree :: elements, rest)
          else none) = some (elements, rest) := by
  obtain ⟨⟨tree, left⟩, htree, h⟩ := Option.bind_eq_some_iff.1 h
  obtain ⟨hless, hsame⟩ := hvalue _ _ _ htree
  dsimp only at h
  cases hskip : skipSpace left with
  | nil =>
    rw [hskip] at h
    cases h
  | cons u more =>
    have hlength := length_of_skipSpace hskip
    rw [hskip] at h
    dsimp only at h
    split at h
    · rename_i hclose
      cases h
      refine ⟨by omega, fun fuel' hfuel => ?_⟩
      rw [hsame fuel' (by omega), Option.bind_some]
      dsimp only
      rw [hskip]
      exact if_pos hclose
    split at h
    · rename_i hclose hcomma
      obtain ⟨r, hafter, heq⟩ := Option.map_eq_some_iff.1 h
      cases heq
      obtain ⟨hless', hsame'⟩ := hread _ _ _ hafter
      refine ⟨by omega, fun fuel' hfuel => ?_⟩
      rw [hsame fuel' (by omega), Option.bind_some]
      dsimp only
      rw [hskip]
      dsimp only
      rw [if_neg hclose, if_pos hcomma, hsame' fuel' (by omega)]
      rfl
    · cases h

theorem readers_enough (fuel : Nat) :
    Enough readValue fuel ∧ Enough readItems fuel ∧ Enough readMembers fuel := by
  induction fuel with
  | zero =>
    refine ⟨?_, ?_, ?_⟩
    · intro text a rest h
      rw [readValue] at h
      cases h
    · intro text a rest h
      rw [readItems] at h
      cases h
    · intro text a rest h
      rw [readMembers] at h
      cases h
  | succ fuel ih =>
    obtain ⟨hvalue, hitems, hmembers⟩ := ih
    refine ⟨readValue_enough hitems hmembers, ?_, ?_⟩
    · intro text items rest h
      rw [readItems] at h
      obtain ⟨hless, hsame⟩ :=
        @element_enough _ _ _ _ (unit ']') hvalue _ hitems id items h
      refine ⟨by omega, fun fuel' hfuel => ?_⟩
      cases fuel' with
      | zero => omega
      | succ fuel' =>
        rw [readItems]
        exact hsame fuel' hfuel
    · intro text members rest h
      rw [readMembers] at h
      cases hskip : skipSpace text with
      | nil =>
        rw [hskip] at h
        cases h
      | cons u more =>
        have hlength := length_of_skipSpace hskip
        rw [hskip] at h
        dsimp only at h
        split at h
        · cases h
        rename_i hquote
        obtain ⟨⟨units, left⟩, hunits, h⟩ := Option.bind_eq_some_iff.1 h
        have hunits' := length_of_parseUnits hunits
        dsimp only at h
        cases hmark : skipSpace left with
        | nil =>
          rw [hmark] at h
          cases h
        | cons v left' =>
          have hmark' := length_of_skipSpace hmark
          rw [hmark] at h
          dsimp only at h
          split at h
          · cases h
          rename_i hcolon
          obtain ⟨hless, hsame⟩ := @element_enough _ _ _ _ (unit '\x7d') hvalue _ hmembers
            (fun tree => ((⟨units⟩ : JsString), tree)) members h
          refine ⟨by omega, fun fuel' hfuel => ?_⟩
          cases fuel' with
          | zero => omega
          | succ fuel' =>
            rw [readMembers, hskip]
            dsimp only
            rw [if_neg hquote, hunits, Option.bind_eq_bind, Option.bind_some]
            dsimp only
            rw [hmark]
            dsimp only
            rw [if_neg hcolon]
            exact hsame fuel' (by omega)

/-- A text whose tree is within the bounds of a frame. -/
structure Bounded (maxSlots : Option Nat) (tree : WrittenJson) : Prop where
  nesting : ∀ part ∈ tree.parts 0, part.1 ≤ ROUTED_DEPTH_LIMIT
  slots : ∀ most ∈ maxSlots, (tree.parts 0).length ≤ most
  distinct : ∀ depth members, (depth, .object members) ∈ tree.parts 0 →
    (members.map (·.1)).Nodup
  allowed : ∀ depth members, (depth, .object members) ∈ tree.parts 0 →
    ∀ key ∈ members.map (·.1), key ∉ forbiddenKeys
  names : ∀ depth members, (depth, .object members) ∈ tree.parts 0 →
    ∀ key ∈ members.map (·.1), Bytes.WellFormed key.units
  strings : ∀ depth s, (depth, .string s) ∈ tree.parts 0 → Bytes.WellFormed s.units
  numbers : ∀ depth n, (depth, .number n) ∈ tree.parts 0 →
    n ≠ .nan ∧ ∀ negative, n ≠ .infinity negative

theorem numberTree_isSome (n : JsNumber) :
    (numberTree n).isSome = true ↔ n ≠ .nan ∧ ∀ negative, n ≠ .infinity negative := by
  cases n <;> simp [numberTree]

theorem bounded_iff {tree : WrittenJson} :
    Bounded maxSlots tree ↔ AllAllowed (tree.parts 0) ∧
      ∃ slots, Counted maxSlots 0 (tree.parts 0).length slots := by
  constructor
  · intro h
    refine ⟨fun part hpart => ⟨h.nesting part hpart, ?_⟩, ?_⟩
    · obtain ⟨depth, value⟩ := part
      cases value with
      | null => trivial
      | bool b => trivial
      | number n => exact (numberTree_isSome n).2 (h.numbers depth n hpart)
      | string s => exact h.strings depth s hpart
      | array items => trivial
      | object members => exact ⟨h.distinct depth members hpart, fun key hkey =>
          ⟨h.names depth members hpart key hkey, h.allowed depth members hpart key hkey⟩⟩
    · cases maxSlots with
      | none => exact ⟨0, rfl⟩
      | some most => exact ⟨_, (Nat.zero_add _).symm, h.slots most rfl⟩
  · rintro ⟨hall, slots, hcount⟩
    refine ⟨fun part hpart => (hall part hpart).1, ?_, fun depth members hpart => (hall _ hpart).2.1,
      fun depth members hpart key hkey => ((hall _ hpart).2.2 key hkey).2,
      fun depth members hpart key hkey => ((hall _ hpart).2.2 key hkey).1,
      fun depth s hpart => (hall _ hpart).2,
      fun depth n hpart => (numberTree_isSome n).1 (hall _ hpart).2⟩
    rintro most rfl
    obtain ⟨heq, hmost⟩ := hcount
    omega

mutual
theorem value_of_allAllowed : (tree : WrittenJson) → (depth : Nat) →
    AllAllowed (tree.parts depth) → tree.value.isSome = true
  | .null, _, _ => rfl
  | .bool _, _, _ => rfl
  | .number _, _, h => (h _ List.mem_cons_self).2
  | .string _, _, _ => rfl
  | .array items, depth, h => by
    have hitems := valueItems_of_allAllowed items (depth + 1) (allAllowed_cons.1 h).2
    rw [WrittenJson.value, Option.isSome_map]
    exact hitems
  | .object members, depth, h => by
    have hmembers := valueMembers_of_allAllowed members (depth + 1) (allAllowed_cons.1 h).2
    rw [WrittenJson.value, Option.isSome_map]
    exact hmembers

theorem valueItems_of_allAllowed : (items : List WrittenJson) → (depth : Nat) →
    AllAllowed (WrittenJson.partsItems depth items) →
    (WrittenJson.valueItems items).isSome = true
  | [], _, _ => rfl
  | item :: items, depth, h => by
    obtain ⟨hitem, hitems⟩ := allAllowed_append.1 h
    obtain ⟨v, hv⟩ := Option.isSome_iff_exists.1 (value_of_allAllowed item depth hitem)
    obtain ⟨vs, hvs⟩ := Option.isSome_iff_exists.1 (valueItems_of_allAllowed items depth hitems)
    rw [WrittenJson.valueItems, hv, hvs]
    rfl

theorem valueMembers_of_allAllowed : (members : List (JsString × WrittenJson)) → (depth : Nat) →
    AllAllowed (WrittenJson.partsMembers depth members) →
    (WrittenJson.valueMembers members).isSome = true
  | [], _, _ => rfl
  | (_, item) :: members, depth, h => by
    obtain ⟨hitem, hmembers⟩ := allAllowed_append.1 h
    obtain ⟨v, hv⟩ := Option.isSome_iff_exists.1 (value_of_allAllowed item depth hitem)
    obtain ⟨vs, hvs⟩ :=
      Option.isSome_iff_exists.1 (valueMembers_of_allAllowed members depth hmembers)
    rw [WrittenJson.valueMembers, hv, hvs]
    rfl
end

theorem endsScalar_of_space (h : skipSpace text = []) : EndsScalar text := by
  apply endsScalar_of_skipSpace
  rw [h]
  intro u hu
  cases hu

/-- A scan of a whole text, with any number of calls that is enough. -/
theorem scanValue_whole
    (hfuel : source.length ≤ fuel) :
    (∃ slots rest, scanValue maxSlots fuel 0 0 source = some (slots, rest) ∧ skipSpace rest = []) ↔
      ∃ tree, readText source = some tree ∧ Bounded maxSlots tree := by
  constructor
  · rintro ⟨slots, rest, hscan, hspace⟩
    obtain ⟨tree, hread, hall, hcount⟩ :=
      ((scanned maxSlots fuel).1 _ _ _ _ _ (endsScalar_of_space hspace)).1 hscan
    refine ⟨tree, ?_, bounded_iff.2 ⟨hall, slots, hcount⟩⟩
    obtain ⟨-, hsame⟩ := (readers_enough fuel).1 _ _ _ hread
    rw [readText, hsame _ (by omega)]
    exact if_pos hspace
  · rintro ⟨tree, hread, hbounded⟩
    obtain ⟨hall, slots, hcount⟩ := bounded_iff.1 hbounded
    rw [readText] at hread
    split at hread
    · rename_i tree' rest htree
      split at hread
      · rename_i hspace
        cases hread
        obtain ⟨-, hsame⟩ := (readers_enough _).1 _ _ _ htree
        exact ⟨slots, rest, ((scanned maxSlots fuel).1 _ _ _ _ _ (endsScalar_of_space hspace)).2
          ⟨tree, hsame fuel (by omega), hall, hcount⟩, hspace⟩
      · cases hread
    · cases hread

theorem parse_scanned {scan : Option (Nat × List UInt16)} {value : Json} :
    (match scan with
      | some (_, rest) => if skipSpace rest = [] then parse source else none
      | none => none) = some value ↔
    (∃ slots rest, scan = some (slots, rest) ∧ skipSpace rest = []) ∧
      parse source = some value := by
  cases scan with
  | none => simp
  | some r =>
    obtain ⟨slots, rest⟩ := r
    by_cases hspace : skipSpace rest = [] <;> simp [hspace]

/-- With calls enough to read its text, a frame is parsed where the text is within the bounds. -/
theorem parse_bounded
    (hfuel : source.length ≤ fuel) {value : Json} :
    (if isSlotCap maxSlots = false then none
      else if ROUTED_EXPANDED_LIMIT < source.length then none
      else
        match scanValue maxSlots fuel 0 0 source with
        | some (_, rest) => if skipSpace rest = [] then parse source else none
        | none => none) = some value ↔
      (isSlotCap maxSlots = true ∧ source.length ≤ ROUTED_EXPANDED_LIMIT ∧
        ∃ tree, readText source = some tree ∧ Bounded maxSlots tree) ∧
      parse source = some value := by
  by_cases hcap : isSlotCap maxSlots = false
  · simp [hcap]
  by_cases hlength : ROUTED_EXPANDED_LIMIT < source.length
  · simp [hlength, Nat.not_le.2 hlength]
  rw [if_neg hcap, if_neg hlength, parse_scanned, scanValue_whole hfuel]
  rw [Bool.not_eq_false] at hcap
  rw [Nat.not_lt] at hlength
  simp only [hcap, hlength, true_and]

theorem parseRoutedJson_some_iff {value : Json} :
    parseRoutedJson source maxSlots = some value ↔
      (isSlotCap maxSlots = true ∧ source.length ≤ ROUTED_EXPANDED_LIMIT ∧
        ∃ tree, readText source = some tree ∧ Bounded maxSlots tree) ∧
      parse source = some value :=
  parse_bounded (Nat.le_succ source.length)

/-- With calls enough for its text, a scan ends with what the bounded one comes to. -/
theorem parseSteps_eq
    (hfuel : 2 * source.length + 1 ≤ fuel) :
    parseSteps fuel source maxSlots = Scan.ofOption (parseRoutedJson source maxSlots) := by
  have hends := ((steps_end maxSlots fuel).1 0 0 source hfuel).1
  have hsame : parseRoutedJson source maxSlots =
      if isSlotCap maxSlots = false then none
      else if ROUTED_EXPANDED_LIMIT < source.length then none
      else
        match scanValue maxSlots fuel 0 0 source with
        | some (_, rest) => if skipSpace rest = [] then parse source else none
        | none => none := by
    apply Option.ext
    intro value
    rw [parseRoutedJson_some_iff, parse_bounded (by omega)]
  rw [parseSteps, hsame, Scan.eq_ofOption hends, (toOption_steps maxSlots fuel).1 0 0 source]
  split
  · rfl
  split
  · rfl
  cases scanValue maxSlots fuel 0 0 source with
  | none => rfl
  | some r =>
    change (if skipSpace r.2 = [] then Scan.ofOption (parse source) else .denied) =
      Scan.ofOption (if skipSpace r.2 = [] then parse source else none)
    split <;> rfl

/-- A frame is parsed where its text is within the bounds, to what the text is parsed to; and the
scan of every text ends. -/
theorem parseRoutedJson_language (source : List UInt16) (maxSlots : Option Nat) :
    ((∃ value, parseRoutedJson source maxSlots = some value) ↔
      isSlotCap maxSlots = true ∧ source.length ≤ ROUTED_EXPANDED_LIMIT ∧
        ∃ tree, readText source = some tree ∧ Bounded maxSlots tree) ∧
    (∀ value, parseRoutedJson source maxSlots = some value → parse source = some value) ∧
    ∃ enough, ∀ fuel, enough ≤ fuel →
      parseSteps fuel source maxSlots = Scan.ofOption (parseRoutedJson source maxSlots) := by
  refine ⟨⟨?_, ?_⟩, ?_, 2 * source.length + 1, fun fuel hfuel => parseSteps_eq hfuel⟩
  · rintro ⟨value, h⟩
    exact (parseRoutedJson_some_iff.1 h).1
  · rintro ⟨hcap, hlength, tree, hread, hbounded⟩
    obtain ⟨value, hvalue⟩ :=
      Option.isSome_iff_exists.1 (value_of_allAllowed tree 0 (bounded_iff.1 hbounded).1)
    refine ⟨value, parseRoutedJson_some_iff.2 ⟨⟨hcap, hlength, tree, hread, hbounded⟩, ?_⟩⟩
    rw [parse_eq, hread]
    exact hvalue
  · intro value h
    exact (parseRoutedJson_some_iff.1 h).2

def longText : List UInt16 := List.replicate ROUTED_EXPANDED_LIMIT 0x20 ++ "null".toList.map unit

theorem readText_spaced (n : Nat) :
    readText (List.replicate n 0x20 ++ "null".toList.map unit) = some .null := by
  have hskip : skipSpace (List.replicate n 0x20 ++ "null".toList.map unit) =
      "null".toList.map unit := by
    induction n with
    | zero => decide
    | succ n ih =>
      rw [List.replicate_succ, List.cons_append, skipSpace, List.dropWhile_cons,
        if_pos (by decide)]
      exact ih
  rw [readText, readValue, hskip]
  rfl

theorem bounded_null : Bounded none .null := by
  rw [bounded_iff]
  refine ⟨?_, 0, rfl⟩
  rw [WrittenJson.parts, allAllowed_cons]
  exact ⟨⟨Nat.zero_le _, trivial⟩, allAllowed_nil⟩

/-- It is within every bound on what is written, and is not parsed. -/
theorem longText_refused : isSlotCap none = true ∧
    (∃ tree, readText longText = some tree ∧ Bounded none tree) ∧
    ¬∃ value, parseRoutedJson longText none = some value := by
  refine ⟨rfl, ⟨.null, readText_spaced _, bounded_null⟩, ?_⟩
  have hlength : ROUTED_EXPANDED_LIMIT < longText.length := by
    rw [longText, List.length_append, List.length_replicate]
    exact Nat.lt_add_of_pos_right (by decide)
  rintro ⟨value, h⟩
  rw [parseRoutedJson, if_neg (by decide), if_pos hlength] at h
  cases h

end RoutedJson
