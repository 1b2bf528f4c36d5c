import CommonFabric.JsonWritten
import CommonFabric.RoutedJson

/-!
# Strings and scalars of routed frames

The scan takes a string up to its closing quote and a scalar up to a delimiter, and has each slice
parsed by itself. It takes what reading the whole text takes.
-/

namespace RoutedJson

open JsonText TextReaders

theorem isDelimiter_of_isDigit {u : UInt16} (h : isDigit u = true) : isDelimiter u = false := by
  apply isDelimiter_of_isNumeric
  rw [isDigit] at h
  rw [isNumeric, h]
  rfl

theorem takes_parseDigits : Takes isDelimiter parseDigits :=
  takes_while fun _ => isDelimiter_of_isDigit

theorem takes_parseMinus : Takes isDelimiter fun text => some (parseMinus text) := by
  have heq : (fun text => some (parseMinus text)) =
      marked (· = unit '-') (fun rest => some (true, rest)) fun rest => some (false, rest) := by
    funext text
    cases text with
    | nil => rfl
    | cons u rest =>
      rw [parseMinus, marked]
      split <;> rfl
  rw [heq]
  refine (takes_done true).marked (takes_done false) fun u hu => ?_
  rw [hu]
  decide

theorem takes_parseFraction : Takes isDelimiter parseFraction := by
  have heq : parseFraction = marked (· = unit '.') parseDigits fun rest => some ([], rest) := by
    funext text
    cases text <;> rfl
  rw [heq]
  refine takes_parseDigits.marked (takes_done []) fun u hu => ?_
  rw [hu]
  decide

theorem takes_sign : Takes isDelimiter fun text =>
    some (if text.head? = some (unit '+') then (false, text.tail) else parseMinus text) := by
  have heq : (fun text : List UInt16 =>
      some (if text.head? = some (unit '+') then (false, text.tail) else parseMinus text)) =
      marked (· = unit '+') (fun rest => some (false, rest)) fun rest => some (parseMinus rest) := by
    funext text
    cases text with
    | nil => rfl
    | cons u rest =>
      rw [marked]
      by_cases hu : u = unit '+'
      · rw [if_pos hu, if_pos (by rw [hu]; rfl)]
        rfl
      · rw [if_neg hu, if_neg (by simpa using hu)]
  rw [heq]
  refine (takes_done false).marked takes_parseMinus fun u hu => ?_
  rw [hu]
  decide

theorem takes_parseExponent : Takes isDelimiter parseExponent := by
  have heq : parseExponent = marked (fun u => u = unit 'e' ∨ u = unit 'E')
      (fun rest => (some (if rest.head? = some (unit '+') then (false, rest.tail)
        else parseMinus rest)).bind fun r => (parseDigits r.2).map fun ds =>
          (if r.1 then -(ofDigits ds.1 : Int) else ofDigits ds.1, ds.2))
      fun rest => some (0, rest) := by
    funext text
    cases text <;> rfl
  rw [heq]
  refine Takes.marked (takes_sign.bind fun negative => takes_parseDigits.map fun ds =>
    if negative then -(ofDigits ds : Int) else ofDigits ds) (takes_done 0) fun u hu => ?_
  cases hu with
  | inl hu =>
    rw [hu]
    decide
  | inr hu =>
    rw [hu]
    decide

/-- A number from its sign and whole part on. -/
def parseFrom (negative : Bool) (whole text : List UInt16) : Option (JsNumber × List UInt16) :=
  if whole.head? = some (unit '0') ∧ whole.length ≠ 1 then none
  else (parseFraction text).bind fun fraction => (parseExponent fraction.2).bind fun exponent =>
    let q := ofDigits (whole ++ fraction.1) * pow10 (exponent.1 - fraction.1.length)
    some (if negative then (if q = 0 then .negZero else JsNumber.round (-q)) else JsNumber.round q,
      exponent.2)

theorem takes_parseFrom (negative : Bool) (whole : List UInt16) :
    Takes isDelimiter (parseFrom negative whole) := by
  unfold parseFrom
  by_cases hlead : whole.head? = some (unit '0') ∧ whole.length ≠ 1
  · simp only [if_pos hlead]
    exact takes_refused
  · simp only [if_neg hlead]
    exact takes_parseFraction.bind fun fraction => takes_parseExponent.bind fun exponent =>
      takes_done (if negative
        then (if ofDigits (whole ++ fraction) * pow10 (exponent - fraction.length) = 0
          then JsNumber.negZero
          else JsNumber.round (-(ofDigits (whole ++ fraction) * pow10 (exponent - fraction.length))))
        else JsNumber.round (ofDigits (whole ++ fraction) * pow10 (exponent - fraction.length)))

theorem takes_parseNumber : Takes isDelimiter parseNumber :=
  takes_parseMinus.bind fun negative => takes_parseDigits.bind fun whole =>
    takes_parseFrom negative whole

/-- A number starts with a digit or a minus sign. -/
theorem parseNumber_first {text : List UInt16} (h : parseNumber text ≠ none) :
    ∃ u, text.head? = some u ∧ isNumeric u = true := by
  cases text with
  | nil => exact absurd rfl h
  | cons u rest =>
    refine ⟨u, rfl, ?_⟩
    by_cases hminus : u = unit '-'
    · rw [hminus]
      decide
    by_cases hdigit : isDigit u = true
    · rw [isDigit] at hdigit
      rw [isNumeric, hdigit]
      rfl
    · exfalso
      apply h
      have hnone : parseDigits (u :: rest) = none := by
        rw [parseDigits, List.takeWhile_cons, if_neg hdigit, if_pos rfl]
      rw [parseNumber, parseMinus, if_neg hminus]
      dsimp only
      rw [hnone]
      rfl

/-- The reader of numbers alone. -/
def readNumber (text : List UInt16) : Option (WrittenJson × List UInt16) :=
  (parseNumber text).map fun r => (.number r.1, r.2)

theorem readNumber_avoids {first : UInt16} (hfirst : isNumeric first = false) :
    Avoids first readNumber := by
  intro text r hread hhead
  obtain ⟨u, hu, hnumeric⟩ := @parseNumber_first text fun hnone => by
    rw [readNumber, hnone] at hread
    cases hread
  rw [hhead] at hu
  cases hu
  rw [hfirst] at hnumeric
  cases hnumeric

theorem takes_readScalar : Takes isDelimiter readScalar := by
  have hnumber : Takes isDelimiter readNumber := takes_parseNumber.map WrittenJson.number
  have havoids (first : UInt16) (hfirst : isNumeric first = false) : Avoids first readNumber :=
    readNumber_avoids hfirst
  have hfalse : Takes isDelimiter (word ("false".toList.map unit) (.bool false) readNumber) := by
    refine hnumber.word (forall_of_all (by decide)) (fun first hfirst => ?_) _
    cases hfirst
    exact havoids _ (by decide)
  have htrue : Takes isDelimiter (word ("true".toList.map unit) (.bool true)
      (word ("false".toList.map unit) (.bool false) readNumber)) := by
    refine hfalse.word (forall_of_all (by decide)) (fun first hfirst => ?_) _
    cases hfirst
    exact (havoids _ (by decide)).word ⟨unit 'f', rfl, by decide⟩ _
  have heq : readScalar = word ("null".toList.map unit) .null
      (word ("true".toList.map unit) (.bool true)
        (word ("false".toList.map unit) (.bool false) readNumber)) := by
    funext text
    rfl
  rw [heq]
  refine htrue.word (forall_of_all (by decide)) (fun first hfirst => ?_) _
  cases hfirst
  exact ((havoids _ (by decide)).word ⟨unit 'f', rfl, by decide⟩ _).word
    ⟨unit 't', rfl, by decide⟩ _

theorem readScalar_nil : readScalar [] = none := by decide

/-- A scalar's value is a scalar, which a number past every bound does not have. -/
theorem isScalar_of_readScalar {text rest : List UInt16} {tree : WrittenJson} {value : Json}
    (h : readScalar text = some (tree, rest)) (hvalue : tree.value = some value) :
    isScalar value = true := by
  unfold readScalar at h
  split at h
  · cases h
    cases hvalue
    rfl
  split at h
  · cases h
    cases hvalue
    rfl
  split at h
  · cases h
    cases hvalue
    rfl
  obtain ⟨⟨n, rest'⟩, -, heq⟩ := Option.map_eq_some_iff.1 h
  cases heq
  rw [WrittenJson.value] at hvalue
  cases n with
  | finite q =>
    cases hvalue
    rfl
  | negZero =>
    cases hvalue
    rfl
  | _ => cases hvalue

theorem readValue_scalar {u : UInt16} {rest : List UInt16} (hspace : isSpace u = false)
    (hquote : u ≠ unit '"') (hbracket : u ≠ unit '[') (hbrace : u ≠ unit '\x7b') (fuel : Nat) :
    readValue (fuel + 1) (u :: rest) = readScalar (u :: rest) := by
  rw [readValue, skipSpace_cons hspace]
  dsimp only
  rw [if_neg hquote, if_neg hbracket, if_neg hbrace]

theorem scanScalar_eq (text : List UInt16) : scanScalar text =
    match parse (text.takeWhile fun u => !isDelimiter u) with
    | some value =>
      if isScalar value then some (text.dropWhile fun u => !isDelimiter u) else none
    | none => none := by
  rw [scanScalar]
  cases parse (text.takeWhile fun u => !isDelimiter u) with
  | none => rfl
  | some value => cases value <;> rfl

theorem isSpace_of_not_isDelimiter {u : UInt16} (h : isDelimiter u = false) :
    isSpace u = false := by
  rw [isDelimiter] at h
  simp only [Bool.or_eq_false_iff] at h
  exact h.1.1.1

/-- What is left of a slice up to a delimiter is nothing where it is but space. -/
theorem eq_nil_of_skipSpace {text : List UInt16} (h : skipSpace text = [])
    (htext : ∀ u ∈ text, isDelimiter u = false) : text = [] := by
  cases text with
  | nil => rfl
  | cons u rest =>
    rw [skipSpace_cons (isSpace_of_not_isDelimiter (htext u List.mem_cons_self))] at h
    cases h

/-- A slice that is a text by itself is read up to its end. -/
theorem readScalar_of_parse {u : UInt16} {slice : List UInt16} {value : Json}
    (hspace : isSpace u = false) (hquote : u ≠ unit '"') (hbracket : u ≠ unit '[')
    (hbrace : u ≠ unit '\x7b') (hplain : ∀ v ∈ u :: slice, isDelimiter v = false)
    (h : parse (u :: slice) = some value) :
    ∃ tree, readScalar (u :: slice) = some (tree, []) ∧ tree.value = some value := by
  rw [parse_eq, readText, readValue_scalar hspace hquote hbracket hbrace] at h
  cases hread : readScalar (u :: slice) with
  | none =>
    rw [hread] at h
    cases h
  | some r =>
    obtain ⟨tree, left⟩ := r
    rw [hread] at h
    dsimp only at h
    split at h
    · rename_i hleft
      obtain ⟨used, hused, -⟩ := takes_readScalar _ _ _ hread
      have hnil : left = [] := by
        refine eq_nil_of_skipSpace hleft fun w hw => hplain w ?_
        rw [hused]
        exact List.mem_append_right used hw
      exact ⟨tree, by rw [hnil], h⟩
    · cases h

theorem parse_of_readScalar {u : UInt16} {slice : List UInt16} {tree : WrittenJson}
    (hspace : isSpace u = false) (hquote : u ≠ unit '"') (hbracket : u ≠ unit '[')
    (hbrace : u ≠ unit '\x7b') (h : readScalar (u :: slice) = some (tree, [])) :
    parse (u :: slice) = tree.value := by
  rw [parse_eq, readText, readValue_scalar hspace hquote hbracket hbrace, h]
  rfl

/-- The scan takes a scalar that is read up to a delimiter and has a value. -/
theorem scanScalar_iff {u : UInt16} {text rest : List UInt16} (hspace : isSpace u = false)
    (hquote : u ≠ unit '"') (hbracket : u ≠ unit '[') (hbrace : u ≠ unit '\x7b')
    (hrest : EndsScalar rest) :
    scanScalar (u :: text) = some rest ↔
      ∃ tree, readScalar (u :: text) = some (tree, rest) ∧ tree.value.isSome = true := by
  rw [scanScalar_eq]
  constructor
  · intro h
    generalize hslice : (u :: text).takeWhile (fun u => !isDelimiter u) = slice at h
    have hplain : ∀ v ∈ slice, isDelimiter v = false := by
      intro v hv
      rw [← hslice] at hv
      simpa using List.mem_takeWhile_imp hv
    cases hparse : parse slice with
    | none =>
      rw [hparse] at h
      cases h
    | some value =>
      rw [hparse] at h
      dsimp only at h
      split at h
      · have htext : slice ++ rest = u :: text := by
          rw [← hslice, ← Option.some.inj h]
          exact List.takeWhile_append_dropWhile
        cases slice with
        | nil => cases hparse
        | cons v slice =>
          cases htext
          obtain ⟨tree, hread, hvalue⟩ :=
            readScalar_of_parse hspace hquote hbracket hbrace hplain hparse
          obtain ⟨used, hused, -, hmore⟩ := takes_readScalar _ _ _ hread
          rw [List.append_nil] at hused
          refine ⟨tree, ?_, by rw [hvalue]; rfl⟩
          change readScalar (u :: slice ++ rest) = some (tree, rest)
          rw [hused]
          exact hmore rest (.inl hrest)
      · cases h
  · rintro ⟨tree, hread, hvalue⟩
    obtain ⟨used, hused, hplain, hmore⟩ := takes_readScalar _ _ _ hread
    obtain ⟨htake, hdrop⟩ := @takeWhile_append (fun u => !isDelimiter u) used rest
      (fun v hv => by rw [hplain v hv]; rfl) fun v hv => by rw [hrest v hv]; rfl
    have halone := hmore [] (.inl fun v hv => by cases hv)
    rw [List.append_nil] at halone
    rw [hused, htake, hdrop]
    cases used with
    | nil =>
      rw [readScalar_nil] at halone
      cases halone
    | cons v used =>
      cases hused
      obtain ⟨value, hvalue⟩ := Option.isSome_iff_exists.1 hvalue
      rw [parse_of_readScalar hspace hquote hbracket hbrace halone, hvalue]
      exact if_pos (isScalar_of_readScalar hread hvalue)

theorem quotedSlice_append {text slice rest : List UInt16}
    (h : quotedSlice text = some (slice, rest)) :
    text = slice ++ rest ∧ ∀ more, quotedSlice (slice ++ more) = some (slice, more) := by
  induction text using quotedSlice.induct generalizing slice with
  | case1 => cases h
  | case2 => cases h
  | case3 d text ih =>
    rw [quotedSlice_escaped] at h
    obtain ⟨⟨slice', rest'⟩, hslice, heq⟩ := Option.map_eq_some_iff.1 h
    cases heq
    obtain ⟨rfl, hmore⟩ := ih hslice
    refine ⟨rfl, fun more => ?_⟩
    rw [List.cons_append, List.cons_append, quotedSlice_escaped, hmore, Option.map_some]
  | case4 text =>
    rw [quotedSlice_quote] at h
    cases h
    exact ⟨rfl, quotedSlice_quote⟩
  | case5 d text hslash hquote ih =>
    rw [quotedSlice_plain hslash hquote] at h
    obtain ⟨⟨slice', rest'⟩, hslice, heq⟩ := Option.map_eq_some_iff.1 h
    cases heq
    obtain ⟨rfl, hmore⟩ := ih hslice
    refine ⟨rfl, fun more => ?_⟩
    rw [List.cons_append, quotedSlice_plain hslash hquote, hmore, Option.map_some]

theorem parseHexDigit_ne {u : UInt16} {n : Nat} (h : parseHexDigit u = some n) :
    u ≠ unit '\\' ∧ u ≠ unit '"' := by
  have hslash : parseHexDigit (unit '\\') = none := by decide
  have hquote : parseHexDigit (unit '"') = none := by decide
  constructor
  · rintro rfl
    rw [hslash] at h
    cases h
  · rintro rfl
    rw [hquote] at h
    cases h

theorem parseHex_ne {a b c d unit' : UInt16} (h : parseHex a b c d = some unit') :
    ∀ u ∈ [a, b, c, d], u ≠ unit '\\' ∧ u ≠ unit '"' := by
  simp only [parseHex, Option.bind_eq_bind, Option.bind_eq_some_iff] at h
  obtain ⟨_, ha, _, hb, _, hc, _, hd, -⟩ := h
  intro u hu
  simp only [List.mem_cons, List.not_mem_nil, or_false] at hu
  obtain rfl | rfl | rfl | rfl := hu
  · exact parseHexDigit_ne ha
  · exact parseHexDigit_ne hb
  · exact parseHexDigit_ne hc
  · exact parseHexDigit_ne hd

theorem parseUnits_unicode {a b c d escaped : UInt16} (h : parseHex a b c d = some escaped)
    (rest : List UInt16) : parseUnits (unit '\\' :: unit 'u' :: a :: b :: c :: d :: rest) =
      (parseUnits rest).map fun (units, rest) => (escaped :: units, rest) := by
  rw [parseUnits.eq_def]
  simp [h, show unit '\\' ≠ unit '"' by decide, show ¬unit '\\' < 0x20 by decide]

theorem quotedSlice_unicode {a b c d escaped : UInt16} (h : parseHex a b c d = some escaped)
    (rest : List UInt16) : quotedSlice (unit '\\' :: unit 'u' :: a :: b :: c :: d :: rest) =
      (quotedSlice rest).map fun (slice, rest) =>
        (unit '\\' :: unit 'u' :: a :: b :: c :: d :: slice, rest) := by
  have hne := parseHex_ne h
  simp only [List.forall_mem_cons] at hne
  obtain ⟨ha, hb, hc, hd, -⟩ := hne
  rw [quotedSlice_escaped, quotedSlice_plain ha.1 ha.2, quotedSlice_plain hb.1 hb.2,
    quotedSlice_plain hc.1 hc.2, quotedSlice_plain hd.1 hd.2]
  simp only [Option.map_map]
  rfl

/-- The units of a string end with the slice up to its closing quote. -/
def SliceOf (text units rest : List UInt16) : Prop :=
  ∃ slice, text = slice ++ rest ∧ ∀ more, quotedSlice (slice ++ more) = some (slice, more) ∧
    parseUnits (slice ++ more) = some (units, more)

/-- What stands for one unit, before the slice of those after it. -/
theorem SliceOf.cons {text units rest : List UInt16} (h : SliceOf text units rest)
    (start : List UInt16) {u : UInt16}
    (hslice : ∀ text, quotedSlice (start ++ text) =
      (quotedSlice text).map fun (slice, rest) => (start ++ slice, rest))
    (hunits : ∀ text, parseUnits (start ++ text) =
      (parseUnits text).map fun (units, rest) => (u :: units, rest)) :
    SliceOf (start ++ text) (u :: units) rest := by
  obtain ⟨slice, rfl, hmore⟩ := h
  refine ⟨start ++ slice, (List.append_assoc _ _ _).symm, fun more => ?_⟩
  rw [List.append_assoc, hslice, hunits, (hmore more).1, (hmore more).2]
  exact ⟨rfl, rfl⟩

theorem sliceOf_parseUnits {text units rest : List UInt16}
    (h : parseUnits text = some (units, rest)) : SliceOf text units rest := by
  induction text using parseUnits.induct generalizing units with
  | case1 => cases h
  | case2 text =>
    rw [parseUnits_quote] at h
    cases h
    exact ⟨[unit '"'], rfl, fun more => ⟨quotedSlice_quote more, parseUnits_quote more⟩⟩
  | case3 u text hquote hcontrol =>
    rw [parseUnits.eq_def] at h
    simp [hquote, hcontrol] at h
  | case4 u text hquote hcontrol hslash ih =>
    have hplain : Plain u := ⟨hquote, hcontrol, hslash⟩
    rw [parseUnits_plain hplain] at h
    obtain ⟨⟨units', rest'⟩, hunits, heq⟩ := Option.map_eq_some_iff.1 h
    cases heq
    exact (ih hunits).cons [u] (quotedSlice_plain hslash hquote)
      (parseUnits_plain hplain)
  | case5 u hquote hcontrol hslash =>
    rw [parseUnits.eq_def] at h
    simp [hquote, hcontrol, hslash] at h
  | case6 u hquote hcontrol hslash v text hv ih =>
    rw [ne_eq, not_not] at hslash
    cases hslash
    cases hescape : parseEscape v with
    | none =>
      rw [parseUnits.eq_def] at h
      simp [hv, hescape, hquote, hcontrol] at h
    | some escaped =>
      rw [parseUnits_escaped hv hescape] at h
      obtain ⟨⟨units', rest'⟩, hunits, heq⟩ := Option.map_eq_some_iff.1 h
      cases heq
      exact (ih hunits).cons [unit '\\', v] (quotedSlice_escaped v)
        (parseUnits_escaped hv hescape)
  | case7 u hquote hcontrol hslash v hv a b c d text ih =>
    rw [ne_eq, not_not] at hslash hv
    cases hslash
    cases hv
    cases hhex : parseHex a b c d with
    | none =>
      rw [parseUnits.eq_def] at h
      simp [hhex, hquote, hcontrol] at h
    | some escaped =>
      rw [parseUnits_unicode hhex] at h
      obtain ⟨⟨units', rest'⟩, hunits, heq⟩ := Option.map_eq_some_iff.1 h
      cases heq
      exact (ih hunits).cons [unit '\\', unit 'u', a, b, c, d]
        (quotedSlice_unicode hhex) (parseUnits_unicode hhex)
  | case8 u hquote hcontrol hslash v text hv hshort =>
    rw [ne_eq, not_not] at hslash hv
    cases hslash
    cases hv
    rw [parseUnits.eq_def] at h
    simp only [hquote, hcontrol, if_false, ne_eq, not_true_eq_false] at h
    cases h

theorem parse_slice (slice : List UInt16) : parse (unit '"' :: slice) =
    match parseUnits slice with
    | some (units, rest) => if skipSpace rest = [] then some (.string ⟨units⟩) else none
    | none => none := by
  rw [parse_eq, readText, readValue, skipSpace_cons (by decide)]
  dsimp only
  rw [if_pos rfl]
  cases parseUnits slice with
  | none => rfl
  | some r =>
    obtain ⟨units, rest⟩ := r
    by_cases hrest : skipSpace rest = []
    · simp only [Option.map_some, hrest, if_true]
      rfl
    · simp only [Option.map_some, hrest, if_false]
      rfl

/-- The scan takes a string that is read and holds no lone surrogate. -/
theorem scanString_iff (text rest : List UInt16) (s : JsString) :
    scanString (unit '"' :: text) = some (s, rest) ↔
      parseUnits text = some (s.units, rest) ∧ Bytes.WellFormed s.units := by
  rw [scanString, if_neg (by simp)]
  constructor
  · intro h
    rw [Option.bind_eq_bind, Option.bind_eq_some_iff] at h
    obtain ⟨⟨slice, rest'⟩, hslice, h⟩ := h
    obtain ⟨rfl, hmore⟩ := quotedSlice_append hslice
    dsimp only at h
    rw [parse_slice] at h
    cases hunits : parseUnits slice with
    | none =>
      rw [hunits] at h
      cases h
    | some r =>
      obtain ⟨units, left⟩ := r
      obtain ⟨start, hstart, hboth⟩ := sliceOf_parseUnits hunits
      have halone := hmore []
      rw [List.append_nil, hstart, (hboth left).1] at halone
      obtain ⟨heq, rfl⟩ := Prod.mk.inj (Option.some.inj halone)
      rw [hunits] at h
      dsimp only at h
      rw [if_pos (show skipSpace [] = [] from rfl)] at h
      dsimp only at h
      split at h
      · rename_i hwell
        cases h
        rw [List.append_nil] at hstart
        rw [hstart]
        exact ⟨(hboth rest).2, hwell⟩
      · cases h
  · rintro ⟨hunits, hwell⟩
    obtain ⟨slice, rfl, hboth⟩ := sliceOf_parseUnits hunits
    have halone := (hboth []).2
    rw [List.append_nil] at halone
    rw [(hboth rest).1, Option.bind_eq_bind, Option.bind_some]
    dsimp only
    rw [parse_slice, halone]
    dsimp only
    rw [if_pos (show skipSpace [] = [] from rfl)]
    exact if_pos hwell

end RoutedJson
