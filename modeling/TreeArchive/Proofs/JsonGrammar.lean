import TreeArchive.Proofs.JsonRoundTrip

/-!
The grammar of JSON texts, stated apart from the reader. The reader takes a text for a value where
the grammar derives it and nowhere else, so no text has two values.
-/
namespace TreeArchive.Json

variable {c : Char} {input text rest chars fraction exponent : List Char}
variable {fuel : Nat} {v : Value}

/-- What may stand around a value and around a mark. -/
def Blanks (input : List Char) : Prop :=
  ∀ c ∈ input, isBlank c = true

/-- What is written between quotes for one character. A surrogate stands for a character only as one
of a pair. -/
inductive WritesChar : List Char → Char → Prop where
  | plain {c : Char} (hquote : c ≠ '"') (hslash : c ≠ '\\') (hcontrol : 0x20 ≤ c.toNat) :
    WritesChar [c] c
  | letter {letter c : Char} (h : unescape? letter = some c) : WritesChar ['\\', letter] c
  | unit {a b c d : Char} {unit : Nat} (hunit : codeUnit? [a, b, c, d] = some unit)
    (hplain : isSurrogate unit = false) :
    WritesChar ['\\', 'u', a, b, c, d] (Char.ofNat unit)
  | pair {a b c d a' b' c' d' char : Char} {high low : Nat}
    (hhigh : codeUnit? [a, b, c, d] = some high) (hsurrogate : isSurrogate high = true)
    (hlow : codeUnit? [a', b', c', d'] = some low) (hchar : ofSurrogates? high low = some char) :
    WritesChar ['\\', 'u', a, b, c, d, '\\', 'u', a', b', c', d'] char

inductive WritesChars : List Char → List Char → Prop where
  | nil : WritesChars [] []
  | cons {text rest chars : List Char} {c : Char} (hchar : WritesChar text c)
    (hrest : WritesChars rest chars) : WritesChars (text ++ rest) (c :: chars)

inductive Fraction : List Char → Prop where
  | absent : Fraction []
  | places {digits : List Char} (h : isDigits digits = true) : Fraction ('.' :: digits)

inductive Exponent : List Char → Prop where
  | absent : Exponent []
  | power {mark : Char} {sign digits : List Char} (hmark : mark = 'e' ∨ mark = 'E')
    (hsign : sign = [] ∨ sign = ['+'] ∨ sign = ['-']) (h : isDigits digits = true) :
    Exponent (mark :: (sign ++ digits))

inductive Numeral : List Char → Prop where
  | mk {sign whole fraction exponent : List Char} (hsign : sign = [] ∨ sign = ['-'])
    (hwhole : isWhole whole = true) (hfraction : Fraction fraction)
    (hexponent : Exponent exponent) : Numeral (sign ++ (whole ++ (fraction ++ exponent)))

/-- A value, or what stands between brackets or braces. -/
inductive Part where
  | value (v : Value)
  | items (items : List Value)
  | fields (fields : List (String × Value))

/-- A text that is written for a part. -/
inductive Writes : List Char → Part → Prop where
  | blanks {before text after : List Char} {v : Value} (hbefore : Blanks before)
    (hafter : Blanks after) (h : Writes text (.value v)) :
    Writes (before ++ (text ++ after)) (.value v)
  | null : Writes ['n', 'u', 'l', 'l'] (.value .null)
  | isTrue : Writes ['t', 'r', 'u', 'e'] (.value (.bool true))
  | isFalse : Writes ['f', 'a', 'l', 's', 'e'] (.value (.bool false))
  | number {text : List Char} (h : Numeral text) : Writes text (.value (ofNumber text))
  | text {text chars : List Char} (h : WritesChars text chars) :
    Writes ('"' :: (text ++ ['"'])) (.value (.text (String.ofList chars)))
  | emptyArray {text : List Char} (h : Blanks text) :
    Writes ('[' :: (text ++ [']'])) (.value (.array []))
  | array {text : List Char} {items : List Value} (h : Writes text (.items items)) :
    Writes ('[' :: (text ++ [']'])) (.value (.array items))
  | emptyObject {text : List Char} (h : Blanks text) :
    Writes ('\x7b' :: (text ++ ['\x7d'])) (.value (.object []))
  | object {text : List Char} {fields : List (String × Value)} (h : Writes text (.fields fields)) :
    Writes ('\x7b' :: (text ++ ['\x7d'])) (.value (.object fields))
  | lastItem {text : List Char} {v : Value} (h : Writes text (.value v)) : Writes text (.items [v])
  | item {text rest : List Char} {v : Value} {items : List Value} (h : Writes text (.value v))
    (hrest : Writes rest (.items items)) : Writes (text ++ ',' :: rest) (.items (v :: items))
  | lastField {before name chars after text : List Char} {v : Value} (hbefore : Blanks before)
    (hname : WritesChars name chars) (hafter : Blanks after) (h : Writes text (.value v)) :
    Writes (before ++ '"' :: (name ++ '"' :: (after ++ ':' :: text)))
      (.fields [(String.ofList chars, v)])
  | field {before name chars after text rest : List Char} {v : Value}
    {fields : List (String × Value)} (hbefore : Blanks before) (hname : WritesChars name chars)
    (hafter : Blanks after) (h : Writes text (.value v)) (hrest : Writes rest (.fields fields)) :
    Writes (before ++ '"' :: (name ++ '"' :: (after ++ ':' :: (text ++ ',' :: rest))))
      (.fields ((String.ofList chars, v) :: fields))

/-! Texts between quotes. -/

theorem readText_of_writesChar (h : WritesChar text c) (rest : List Char) :
    readText (text ++ rest) = cons? c (readText rest) := by
  cases h with
  | plain hquote hslash hcontrol => exact readText_plain hquote hslash (by omega)
  | letter h =>
    rw [List.cons_append, List.cons_append, List.nil_append, readText, h]
    rintro _ _ _ _ _ rfl
    cases h
  | unit hunit hplain =>
    simp only [List.cons_append, List.nil_append, readText, hunit, hplain, Bool.false_eq_true,
      if_false]
  | pair hhigh hsurrogate hlow hchar =>
    simp only [List.cons_append, List.nil_append, readText, hhigh, hsurrogate, if_true, hlow,
      Option.bind_some, hchar]

theorem readText_of_writesChars (h : WritesChars text chars) (rest : List Char) :
    readText (text ++ '"' :: rest) = some (chars, rest) := by
  induction h with
  | nil => rfl
  | cons hchar _ ih =>
    rw [List.append_assoc, readText_of_writesChar hchar, ih]
    rfl

theorem exists_of_cons? {read : Option (List Char × List Char)}
    (h : cons? c read = some (chars, rest)) :
    ∃ more, read = some (more, rest) ∧ chars = c :: more := by
  obtain ⟨⟨more, rest'⟩, hread, heq⟩ := Option.map_eq_some_iff.1 h
  cases heq
  exact ⟨more, hread, rfl⟩

/-- What is read up to a closing quote is written by the grammar. -/
theorem exists_of_readText (h : readText input = some (chars, rest)) :
    ∃ text, input = text ++ '"' :: rest ∧ WritesChars text chars := by
  -- one character, and what is read behind it
  have hstep {chars piece more : List Char} {c : Char} (hchar : WritesChar piece c)
      (ih : ∀ {chars}, readText more = some (chars, rest) →
        ∃ text, more = text ++ '"' :: rest ∧ WritesChars text chars)
      (h : cons? c (readText more) = some (chars, rest)) :
      ∃ text, piece ++ more = text ++ '"' :: rest ∧ WritesChars text chars := by
    obtain ⟨others, hothers, rfl⟩ := exists_of_cons? h
    obtain ⟨text, rfl, htext⟩ := ih hothers
    exact ⟨piece ++ text, (List.append_assoc ..).symm, .cons hchar htext⟩
  fun_induction readText input generalizing chars with
  | case1 => cases h
  | case2 =>
    cases h
    exact ⟨[], rfl, .nil⟩
  | case3 => cases h
  | case4 => cases h
  | case5 a b c d high hhigh hsurrogate a' b' c' d' more char hchar ih =>
    obtain ⟨low, hlow, hchar⟩ := Option.bind_eq_some_iff.1 hchar
    exact hstep (.pair hhigh hsurrogate hlow hchar) ih h
  | case6 => cases h
  | case7 a b c d more unit hunit hplain ih =>
    exact hstep (.unit hunit (by simpa using hplain)) ih h
  | case8 => cases h
  | case9 letter more _ char hchar ih => exact hstep (.letter hchar) ih h
  | case10 => cases h
  | case11 c more hquote _ hletter hcontrol ih =>
    have hslash : c ≠ '\\' := by
      rintro rfl
      -- nothing is behind a backslash here, so the text does not end
      cases more with
      | nil => cases h
      | cons letter more => exact hletter letter more rfl rfl
    exact hstep (.plain hquote hslash (by omega)) ih h

/-! Numbers. -/

theorem noDigitFirst_nil : NoDigitFirst [] := by
  simp [NoDigitFirst]

theorem noDigitFirst_cons (h : c.isDigit = false) (rest : List Char) :
    NoDigitFirst (c :: rest) := by
  rintro c ⟨⟩
  exact h

theorem isExponent_of_exponent (h : Exponent exponent) :
    isExponent exponent = true ∧ NoDigitFirst exponent ∧ exponent.head? ≠ some '.' := by
  cases h with
  | absent => exact ⟨rfl, noDigitFirst_nil, by simp⟩
  | @power mark sign digits hmark hsign hdigits =>
    have hsigned : dropSign (sign ++ digits) = digits := by
      obtain ⟨hne, hall⟩ := isDigits_iff.1 hdigits
      obtain ⟨d, ds, rfl⟩ := List.exists_cons_of_ne_nil hne
      have hd : d.isDigit = true := hall d List.mem_cons_self
      rcases hsign with rfl | rfl | rfl
      · rw [List.nil_append, dropSign, dropMinus]
        · rintro _ ⟨⟩
          cases hd
        · rintro _ ⟨⟩
          cases hd
      · rfl
      · rfl
    refine ⟨?_, ?_, ?_⟩
    · rw [isExponent, hsigned, hdigits]
      simpa using hmark
    · rcases hmark with rfl | rfl <;> exact noDigitFirst_cons rfl _
    · rcases hmark with rfl | rfl <;> simp

theorem exists_dropMinus (input : List Char) :
    ∃ sign, (sign = [] ∨ sign = ['-']) ∧ input = sign ++ dropMinus input := by
  unfold dropMinus
  split
  · exact ⟨['-'], .inr rfl, rfl⟩
  · exact ⟨[], .inl rfl, rfl⟩

theorem exists_dropSign (input : List Char) :
    ∃ sign, (sign = [] ∨ sign = ['+'] ∨ sign = ['-']) ∧ input = sign ++ dropSign input := by
  unfold dropSign
  split
  · exact ⟨['+'], .inr (.inl rfl), rfl⟩
  · obtain ⟨sign, hsign, hinput⟩ := exists_dropMinus input
    exact ⟨sign, hsign.imp_right .inr, hinput⟩

theorem exponent_of_isExponent (h : isExponent exponent = true) : Exponent exponent := by
  cases exponent with
  | nil => exact .absent
  | cons mark rest =>
    simp only [isExponent, Bool.and_eq_true, Bool.or_eq_true, beq_iff_eq] at h
    obtain ⟨sign, hsign, hrest⟩ := exists_dropSign rest
    rw [hrest]
    exact .power h.1 hsign h.2

/-- A fraction and an exponent, of which either may be absent. -/
theorem isFraction_iff : isFraction input = true ↔
    ∃ fraction exponent, input = fraction ++ exponent ∧ Fraction fraction ∧ Exponent exponent := by
  constructor
  · intro h
    unfold isFraction at h
    split at h
    · rename_i rest
      rw [Bool.and_eq_true] at h
      have hplaces : isDigits (rest.takeWhile Char.isDigit) = true := by
        refine isDigits_iff.2 ⟨by simpa using h.1, fun _ hc => List.mem_takeWhile_imp hc⟩
      refine ⟨_, _, ?_, .places hplaces, exponent_of_isExponent h.2⟩
      rw [List.cons_append, List.takeWhile_append_dropWhile]
    · exact ⟨[], input, rfl, .absent, exponent_of_isExponent h⟩
  · rintro ⟨fraction, exponent, rfl, hfraction, hexponent⟩
    obtain ⟨hisExponent, hdigit, hpoint⟩ := isExponent_of_exponent hexponent
    cases hfraction with
    | absent =>
      rw [List.nil_append, isFraction]
      · exact hisExponent
      · rintro _ rfl
        exact hpoint rfl
    | places hdigits => rw [List.cons_append, isFraction_append hdigits hdigit, hisExponent]

theorem noDigitFirst_of_isFraction (h : isFraction input = true) : NoDigitFirst input := by
  obtain ⟨fraction, exponent, rfl, hfraction, hexponent⟩ := isFraction_iff.1 h
  cases hfraction with
  | absent => exact (isExponent_of_exponent hexponent).2.1
  | places => exact noDigitFirst_cons rfl _

theorem isNumber_iff : isNumber input = true ↔ Numeral input := by
  constructor
  · intro h
    rw [isNumber, Bool.and_eq_true] at h
    obtain ⟨hwhole, hfraction⟩ := h
    obtain ⟨fraction, exponent, hsplit, hfraction, hexponent⟩ := isFraction_iff.1 hfraction
    obtain ⟨sign, hsign, hinput⟩ := exists_dropMinus input
    have hunsigned := List.takeWhile_append_dropWhile (p := Char.isDigit) (l := dropMinus input)
    rw [hinput, ← hunsigned, hsplit]
    exact .mk hsign hwhole hfraction hexponent
  · rintro ⟨hsign, hwhole, hfraction, hexponent⟩
    rename_i sign whole fraction exponent
    have htail : isFraction (fraction ++ exponent) = true :=
      isFraction_iff.2 ⟨_, _, rfl, hfraction, hexponent⟩
    have hfirst := noDigitFirst_of_isFraction htail
    rcases hsign with rfl | rfl
    · rw [List.nil_append, isNumber_append hwhole hfirst, htail]
    · obtain ⟨htake, hdrop⟩ := takeWhile_digits (isWhole_iff.1 hwhole).1.2 hfirst
      rw [List.singleton_append, isNumber, dropMinus, htake, hdrop, hwhole, htail]
      rfl

/-! What the reader takes, the grammar derives. -/

theorem blanks_nil : Blanks [] := by
  simp [Blanks]

theorem exists_blanks (input : List Char) :
    ∃ before, Blanks before ∧ input = before ++ skipBlanks input :=
  ⟨input.takeWhile isBlank, fun _ hc => List.mem_takeWhile_imp hc,
    List.takeWhile_append_dropWhile.symm⟩

theorem skipBlanks_append (h : Blanks input) (rest : List Char) :
    skipBlanks (input ++ rest) = skipBlanks rest :=
  List.dropWhile_append_of_pos h

theorem skipBlanks_skipBlanks (input : List Char) :
    skipBlanks (skipBlanks input) = skipBlanks input := by
  obtain ⟨before, hbefore, hinput⟩ := exists_blanks input
  conv_rhs => rw [hinput, skipBlanks_append hbefore]

theorem readItems_skipBlanks (fuel : Nat) (input : List Char) :
    readItems fuel (skipBlanks input) = readItems fuel input := by
  cases fuel with
  | zero => rfl
  | succ fuel => rw [readItems, readItems, readValue_congr (skipBlanks_skipBlanks input)]

theorem readFields_skipBlanks (fuel : Nat) (input : List Char) :
    readFields fuel (skipBlanks input) = readFields fuel input := by
  cases fuel with
  | zero => rfl
  | succ fuel => rw [readFields, readFields, skipBlanks_skipBlanks]

theorem eq_append_of_readWord {word : String} {value : Value}
    (h : readWord word value input = some (v, rest)) : v = value ∧ input = word.toList ++ rest := by
  unfold readWord at h
  split at h
  · rename_i hprefix
    obtain ⟨more, rfl⟩ := List.isPrefixOf_iff_prefix.1 hprefix
    cases h
    rw [← String.length_toList, List.drop_left]
    exact ⟨rfl, rfl⟩
  · cases h

theorem exists_of_readNumber (h : readNumber input = some (v, rest)) :
    ∃ text, input = text ++ rest ∧ Writes text (.value v) := by
  simp only [readNumber, Option.ite_none_right_eq_some, Option.some.injEq, Prod.mk.injEq] at h
  obtain ⟨hnumber, rfl, rfl⟩ := h
  exact ⟨_, List.takeWhile_append_dropWhile.symm, .number (isNumber_iff.1 hnumber)⟩

/-- The grammar derives what the reader takes with this fuel. -/
structure Derives (fuel : Nat) : Prop where
  value {input rest : List Char} {v : Value} (h : readValue fuel input = some (v, rest)) :
    ∃ text, input = text ++ rest ∧ Writes text (.value v)
  items {input rest : List Char} {items : List Value}
    (h : readItems fuel input = some (items, rest)) :
    ∃ text, input = text ++ ']' :: rest ∧ Writes text (.items items)
  fields {input rest : List Char} {fields : List (String × Value)}
    (h : readFields fuel input = some (fields, rest)) :
    ∃ text, input = text ++ '\x7d' :: rest ∧ Writes text (.fields fields)

theorem Derives.value_step (ih : Derives fuel) (h : readValue (fuel + 1) input = some (v, rest)) :
    ∃ text, input = text ++ rest ∧ Writes text (.value v) := by
  obtain ⟨before, hbefore, hinput⟩ := exists_blanks input
  suffices hvalue : ∃ text, skipBlanks input = text ++ rest ∧ Writes text (.value v) by
    obtain ⟨text, htext, hwrites⟩ := hvalue
    refine ⟨before ++ (text ++ []), ?_, .blanks hbefore blanks_nil hwrites⟩
    rw [List.append_nil, List.append_assoc, ← htext]
    exact hinput
  rw [readValue] at h
  generalize skipBlanks input = tail at h
  cases tail with
  | nil => cases h
  | cons c more =>
    dsimp only at h
    split at h
    · -- a text
      subst c
      obtain ⟨⟨chars, rest'⟩, hread, heq⟩ := Option.map_eq_some_iff.1 h
      cases heq
      obtain ⟨text, rfl, hchars⟩ := exists_of_readText hread
      exact ⟨'"' :: (text ++ ['"']), by simp, .text hchars⟩
    split at h
    · -- an array
      subst c
      obtain ⟨blanks, hblanks, hmore⟩ := exists_blanks more
      split at h
      · rename_i rest' hclose
        cases h
        rw [hclose] at hmore
        exact ⟨'[' :: (blanks ++ [']']), by simp [hmore], .emptyArray hblanks⟩
      · obtain ⟨⟨items, rest'⟩, hread, heq⟩ := Option.map_eq_some_iff.1 h
        cases heq
        rw [readItems_skipBlanks] at hread
        obtain ⟨text, rfl, hitems⟩ := ih.items hread
        exact ⟨'[' :: (text ++ [']']), by simp, .array hitems⟩
    split at h
    · -- an object
      subst c
      obtain ⟨blanks, hblanks, hmore⟩ := exists_blanks more
      split at h
      · rename_i rest' hclose
        cases h
        rw [hclose] at hmore
        exact ⟨'\x7b' :: (blanks ++ ['\x7d']), by simp [hmore], .emptyObject hblanks⟩
      · obtain ⟨⟨fields, rest'⟩, hread, heq⟩ := Option.map_eq_some_iff.1 h
        cases heq
        rw [readFields_skipBlanks] at hread
        obtain ⟨text, rfl, hfields⟩ := ih.fields hread
        exact ⟨'\x7b' :: (text ++ ['\x7d']), by simp, .object hfields⟩
    split at h
    · subst c
      obtain ⟨rfl, rfl⟩ := eq_append_of_readWord h
      exact ⟨_, rfl, .isTrue⟩
    split at h
    · subst c
      obtain ⟨rfl, rfl⟩ := eq_append_of_readWord h
      exact ⟨_, rfl, .isFalse⟩
    split at h
    · subst c
      obtain ⟨rfl, rfl⟩ := eq_append_of_readWord h
      exact ⟨_, rfl, .null⟩
    · exact exists_of_readNumber h

theorem Derives.items_step {items : List Value} (ih : Derives fuel)
    (h : readItems (fuel + 1) input = some (items, rest)) :
    ∃ text, input = text ++ ']' :: rest ∧ Writes text (.items items) := by
  rw [readItems] at h
  obtain ⟨⟨v, more⟩, hread, hnext⟩ := Option.bind_eq_some_iff.1 h
  obtain ⟨text, rfl, hvalue⟩ := ih.value hread
  obtain ⟨after, hafter, hmore⟩ := exists_blanks more
  have hitem : Writes (text ++ after) (.value v) := .blanks blanks_nil hafter hvalue
  dsimp only at hnext
  split at hnext
  · rename_i others hmark
    obtain ⟨⟨items, rest'⟩, hread, heq⟩ := Option.map_eq_some_iff.1 hnext
    cases heq
    obtain ⟨text', rfl, hitems⟩ := ih.items hread
    refine ⟨_, ?_, .item hitem hitems⟩
    rw [hmore, hmark]
    simp
  · rename_i others hmark
    cases hnext
    refine ⟨_, ?_, .lastItem hitem⟩
    rw [hmore, hmark]
    simp
  · cases hnext

theorem Derives.fields_step {fields : List (String × Value)} (ih : Derives fuel)
    (h : readFields (fuel + 1) input = some (fields, rest)) :
    ∃ text, input = text ++ '\x7d' :: rest ∧ Writes text (.fields fields) := by
  obtain ⟨before, hbefore, hinput⟩ := exists_blanks input
  rw [readFields] at h
  split at h
  · rename_i quoted hquote
    obtain ⟨⟨chars, behind⟩, hread, hname⟩ := Option.bind_eq_some_iff.1 h
    obtain ⟨name, rfl, hchars⟩ := exists_of_readText hread
    obtain ⟨between, hbetween, hbehind⟩ := exists_blanks behind
    dsimp only at hname
    split at hname
    · rename_i after hcolon
      obtain ⟨⟨v, more⟩, hread, hnext⟩ := Option.bind_eq_some_iff.1 hname
      obtain ⟨text, rfl, hvalue⟩ := ih.value hread
      obtain ⟨last, hlast, hmore⟩ := exists_blanks more
      have hfield : Writes (text ++ last) (.value v) := .blanks blanks_nil hlast hvalue
      dsimp only at hnext
      split at hnext
      · rename_i others hmark
        obtain ⟨⟨fields, rest'⟩, hread, heq⟩ := Option.map_eq_some_iff.1 hnext
        cases heq
        obtain ⟨text', rfl, hfields⟩ := ih.fields hread
        refine ⟨_, ?_, .field hbefore hchars hbetween hfield hfields⟩
        rw [hinput, hquote, hbehind, hcolon, hmore, hmark]
        simp
      · rename_i others hmark
        cases hnext
        refine ⟨_, ?_, .lastField hbefore hchars hbetween hfield⟩
        rw [hinput, hquote, hbehind, hcolon, hmore, hmark]
        simp
      · cases hnext
    · cases hname
  · cases h

theorem derives (fuel : Nat) : Derives fuel := by
  induction fuel with
  | zero => exact ⟨(nomatch ·), (nomatch ·), (nomatch ·)⟩
  | succ fuel ih => exact ⟨ih.value_step, ih.items_step, ih.fields_step⟩

/-! What the grammar derives, the reader takes. -/

theorem endsNumber_append (h : Blanks input) (hrest : EndsNumber rest) :
    EndsNumber (input ++ rest) := by
  cases input with
  | nil => exact hrest
  | cons c input =>
    have hc := h c List.mem_cons_self
    simp only [isBlank, Bool.or_eq_true, beq_iff_eq] at hc
    rcases hc with ((rfl | rfl) | rfl) | rfl <;> exact endsNumber_cons rfl _

/-- No part starts with a bracket or a brace that closes. -/
theorem Writes.exists_first {part : Part} (h : Writes text part) (rest : List Char) :
    ∃ c more, skipBlanks (text ++ rest) = c :: more ∧ c ≠ ']' ∧ c ≠ '\x7d' := by
  have hvisible {c : Char} (hblank : isBlank c = false) (hclose : c ≠ ']' ∧ c ≠ '\x7d')
      (more : List Char) :
      ∃ c' more', skipBlanks (c :: more) = c' :: more' ∧ c' ≠ ']' ∧ c' ≠ '\x7d' :=
    ⟨c, more, skipBlanks_cons hblank more, hclose⟩
  induction h generalizing rest with
  | blanks hbefore _ _ ih =>
    rw [List.append_assoc, List.append_assoc, skipBlanks_append hbefore]
    exact ih _
  | null | isTrue | isFalse | text | emptyArray | array | emptyObject | object =>
    exact hvisible rfl (by decide) _
  | number h =>
    obtain ⟨c, more, rfl, hc⟩ := exists_cons_of_isNumber (isNumber_iff.2 h)
    exact hvisible (isBlank_of_first hc)
      ⟨ne_of_first hc (by decide), ne_of_first hc (by decide)⟩ _
  | lastItem _ ih => exact ih rest
  | item _ _ ih =>
    rw [List.append_assoc]
    exact ih _
  | lastField hbefore | field hbefore =>
    rw [List.append_assoc, skipBlanks_append hbefore]
    exact hvisible rfl (by decide) _

/-- The reader takes a text for a part, whatever follows. -/
def Taken (text : List Char) : Part → Prop
  | .value v => ∀ fuel rest, text.length ≤ fuel → EndsNumber rest →
    ∃ more, readValue fuel (text ++ rest) = some (v, more) ∧ skipBlanks more = skipBlanks rest
  | .items items => ∀ fuel rest, text.length < fuel →
    readItems fuel (text ++ ']' :: rest) = some (items, rest)
  | .fields fields => ∀ fuel rest, text.length < fuel →
    readFields fuel (text ++ '\x7d' :: rest) = some (fields, rest)

section OpeningMark

variable {more : List Char}

theorem readValue_emptyArray (h : skipBlanks input = ']' :: rest) :
    readValue (fuel + 1) ('[' :: input) = some (.array [], rest) := by
  rw [readValue, skipBlanks_cons rfl]
  dsimp only
  rw [if_neg (by decide), if_pos rfl, h]
  rfl

theorem readValue_emptyObject (h : skipBlanks input = '\x7d' :: rest) :
    readValue (fuel + 1) ('\x7b' :: input) = some (.object [], rest) := by
  rw [readValue, skipBlanks_cons rfl]
  dsimp only
  rw [if_neg (by decide), if_neg (by decide), if_pos rfl, h]
  rfl

theorem readValue_items {items : List Value} (hfirst : skipBlanks input = c :: more)
    (hclose : c ≠ ']') (h : readItems fuel input = some (items, rest)) :
    readValue (fuel + 1) ('[' :: input) = some (.array items, rest) := by
  rw [readValue, skipBlanks_cons rfl]
  dsimp only
  rw [if_neg (by decide), if_pos rfl]
  split
  · rename_i hclosed
    rw [hfirst] at hclosed
    exact absurd (List.cons.inj hclosed).1 hclose
  · rw [readItems_skipBlanks, h, Option.map_some]

theorem readValue_fields {fields : List (String × Value)} (hfirst : skipBlanks input = c :: more)
    (hclose : c ≠ '\x7d') (h : readFields fuel input = some (fields, rest)) :
    readValue (fuel + 1) ('\x7b' :: input) = some (.object fields, rest) := by
  rw [readValue, skipBlanks_cons rfl]
  dsimp only
  rw [if_neg (by decide), if_neg (by decide), if_pos rfl]
  split
  · rename_i hclosed
    rw [hfirst] at hclosed
    exact absurd (List.cons.inj hclosed).1 hclose
  · rw [readFields_skipBlanks, h, Option.map_some]

end OpeningMark

section MarkBehind

variable {items : List Value} {fields : List (String × Value)} {name after others more : List Char}

theorem readItems_last (hread : readValue fuel input = some (v, more))
    (hmark : skipBlanks more = ']' :: rest) :
    readItems (fuel + 1) input = some ([v], rest) := by
  rw [readItems, hread, Option.bind_eq_bind, Option.bind_some]
  simp only [hmark]

theorem readItems_cons (hread : readValue fuel input = some (v, more))
    (hmark : skipBlanks more = ',' :: others)
    (hitems : readItems fuel others = some (items, rest)) :
    readItems (fuel + 1) input = some (v :: items, rest) := by
  rw [readItems, hread, Option.bind_eq_bind, Option.bind_some]
  simp only [hmark, hitems, Option.map_some]

theorem readFields_last (hquote : skipBlanks input = '"' :: (name ++ '"' :: after))
    (hname : WritesChars name chars) (hcolon : skipBlanks after = ':' :: text)
    (hread : readValue fuel text = some (v, more)) (hmark : skipBlanks more = '\x7d' :: rest) :
    readFields (fuel + 1) input = some ([(String.ofList chars, v)], rest) := by
  rw [readFields, hquote]
  simp only [readText_of_writesChars hname, Option.bind_eq_bind, Option.bind_some, hcolon, hread,
    hmark]

theorem readFields_cons (hquote : skipBlanks input = '"' :: (name ++ '"' :: after))
    (hname : WritesChars name chars) (hcolon : skipBlanks after = ':' :: text)
    (hread : readValue fuel text = some (v, more)) (hmark : skipBlanks more = ',' :: others)
    (hfields : readFields fuel others = some (fields, rest)) :
    readFields (fuel + 1) input = some ((String.ofList chars, v) :: fields, rest) := by
  rw [readFields, hquote]
  simp only [readText_of_writesChars hname, Option.bind_eq_bind, Option.bind_some, hcolon, hread,
    hmark, hfields, Option.map_some]

end MarkBehind

/-- By induction on the derivation. Blanks in a value leave its length enough fuel, and each mark
takes as much as the call behind it. -/
theorem Writes.taken {part : Part} (h : Writes text part) : Taken text part := by
  induction h with
  | @blanks before text after v hbefore hafter _ ih =>
    intro fuel rest hfuel hrest
    simp only [List.length_append] at hfuel
    obtain ⟨more, hread, hmore⟩ :=
      ih fuel (after ++ rest) (by omega) (endsNumber_append hafter hrest)
    refine ⟨more, ?_, hmore.trans (skipBlanks_append hafter rest)⟩
    rw [← hread]
    apply readValue_congr
    rw [List.append_assoc, List.append_assoc, skipBlanks_append hbefore]
  | null | isTrue | isFalse =>
    intro fuel rest hfuel _
    obtain ⟨fuel, rfl⟩ := Nat.exists_eq_add_of_lt hfuel
    exact ⟨rest, rfl, rfl⟩
  | @number text h =>
    intro fuel rest hfuel hrest
    have hnumber := isNumber_iff.2 h
    obtain ⟨c, more, rfl, -⟩ := exists_cons_of_isNumber hnumber
    obtain ⟨fuel, rfl⟩ := Nat.exists_eq_add_of_lt hfuel
    exact ⟨rest, readValue_number hnumber hrest, rfl⟩
  | @text text chars h =>
    intro fuel rest hfuel _
    obtain ⟨fuel, rfl⟩ := Nat.exists_eq_add_of_lt hfuel
    refine ⟨rest, ?_, rfl⟩
    rw [List.cons_append, readValue, skipBlanks_cons rfl]
    dsimp only
    rw [if_pos rfl, List.append_assoc, List.singleton_append, readText_of_writesChars h,
      Option.map_some]
  | @emptyArray text h =>
    intro fuel rest hfuel _
    obtain ⟨fuel, rfl⟩ := Nat.exists_eq_add_of_lt hfuel
    refine ⟨rest, ?_, rfl⟩
    rw [List.cons_append, List.append_assoc]
    apply readValue_emptyArray
    rw [skipBlanks_append h, List.singleton_append, skipBlanks_cons rfl]
  | @emptyObject text h =>
    intro fuel rest hfuel _
    obtain ⟨fuel, rfl⟩ := Nat.exists_eq_add_of_lt hfuel
    refine ⟨rest, ?_, rfl⟩
    rw [List.cons_append, List.append_assoc]
    apply readValue_emptyObject
    rw [skipBlanks_append h, List.singleton_append, skipBlanks_cons rfl]
  | @array text items h ih =>
    intro fuel rest hfuel _
    simp only [List.length_cons, List.length_append, List.length_nil] at hfuel
    obtain ⟨fuel, rfl⟩ := Nat.exists_eq_add_of_lt hfuel
    obtain ⟨c, more, hfirst, hclose, -⟩ := h.exists_first (']' :: rest)
    refine ⟨rest, ?_, rfl⟩
    rw [List.cons_append, List.append_assoc, List.singleton_append]
    exact readValue_items hfirst hclose (ih _ _ (by omega))
  | @object text fields h ih =>
    intro fuel rest hfuel _
    simp only [List.length_cons, List.length_append, List.length_nil] at hfuel
    obtain ⟨fuel, rfl⟩ := Nat.exists_eq_add_of_lt hfuel
    obtain ⟨c, more, hfirst, -, hclose⟩ := h.exists_first ('\x7d' :: rest)
    refine ⟨rest, ?_, rfl⟩
    rw [List.cons_append, List.append_assoc, List.singleton_append]
    exact readValue_fields hfirst hclose (ih _ _ (by omega))
  | @lastItem text v _ ih =>
    intro fuel rest hfuel
    obtain ⟨fuel, rfl⟩ := Nat.exists_eq_add_one_of_ne_zero (n := fuel) (by omega)
    obtain ⟨more, hread, hmore⟩ := ih fuel (']' :: rest) (by omega) (endsNumber_cons rfl rest)
    exact readItems_last hread hmore
  | @item text others v items _ _ ih ihrest =>
    intro fuel rest hfuel
    simp only [List.length_cons, List.length_append] at hfuel
    obtain ⟨fuel, rfl⟩ := Nat.exists_eq_add_one_of_ne_zero (n := fuel) (by omega)
    obtain ⟨more, hread, hmore⟩ :=
      ih fuel (',' :: (others ++ ']' :: rest)) (by omega) (endsNumber_cons rfl _)
    rw [List.append_assoc, List.cons_append]
    exact readItems_cons hread hmore (ihrest fuel rest (by omega))
  | @lastField before name chars after text v hbefore hname hafter _ ih =>
    intro fuel rest hfuel
    simp only [List.length_cons, List.length_append] at hfuel
    obtain ⟨fuel, rfl⟩ := Nat.exists_eq_add_one_of_ne_zero (n := fuel) (by omega)
    obtain ⟨more, hread, hmore⟩ := ih fuel ('\x7d' :: rest) (by omega) (endsNumber_cons rfl rest)
    have hquote := skipBlanks_append hbefore
      ('"' :: (name ++ '"' :: (after ++ ':' :: (text ++ '\x7d' :: rest))))
    have hcolon := skipBlanks_append hafter (':' :: (text ++ '\x7d' :: rest))
    have hfields := readFields_last hquote hname hcolon hread hmore
    simpa only [List.append_assoc, List.cons_append] using hfields
  | @field before name chars after text others v fields hbefore hname hafter _ _ ih ihrest =>
    intro fuel rest hfuel
    simp only [List.length_cons, List.length_append] at hfuel
    obtain ⟨fuel, rfl⟩ := Nat.exists_eq_add_one_of_ne_zero (n := fuel) (by omega)
    obtain ⟨more, hread, hmore⟩ :=
      ih fuel (',' :: (others ++ '\x7d' :: rest)) (by omega) (endsNumber_cons rfl _)
    have hquote := skipBlanks_append hbefore
      ('"' :: (name ++ '"' :: (after ++ ':' :: (text ++ ',' :: (others ++ '\x7d' :: rest)))))
    have hcolon := skipBlanks_append hafter (':' :: (text ++ ',' :: (others ++ '\x7d' :: rest)))
    have hfields := readFields_cons hquote hname hcolon hread hmore (ihrest fuel rest (by omega))
    simpa only [List.append_assoc, List.cons_append] using hfields

/-- A text that the grammar derives for a value. -/
def IsText (text : String) (v : Value) : Prop :=
  Writes text.toList (.value v)

/-- The reader takes a text for a value where the grammar derives it, and nowhere else. -/
theorem read?_eq_some_iff {text : String} : read? text = some v ↔ IsText text v := by
  constructor
  · intro h
    unfold read? at h
    split at h
    · rename_i v' rest hread
      obtain ⟨before, htext, hwrites⟩ := (derives _).value hread
      obtain ⟨after, hafter, hrest⟩ := exists_blanks rest
      split at h
      · rename_i hempty
        cases h
        rw [List.isEmpty_iff.1 hempty, List.append_nil] at hrest
        rw [IsText, htext, hrest]
        exact .blanks blanks_nil hafter hwrites
      · cases h
    · cases h
  · intro h
    have hlength : text.toList.length ≤ text.length + 1 := by
      rw [String.length_toList]
      exact Nat.le_succ _
    obtain ⟨more, hread, hmore⟩ := h.taken _ [] hlength (by simp [EndsNumber])
    rw [List.append_nil] at hread
    have hempty : (skipBlanks more).isEmpty = true := by
      rw [hmore]
      rfl
    rw [read?, hread]
    exact if_pos hempty

/-- A rendered document is a text by the grammar, for one value: what the document says. -/
theorem isText_render_iff (j : Json) : IsText j.render v ↔ v = j.value := by
  rw [← read?_eq_some_iff, read?_render, Option.some.injEq]
  exact eq_comm

end TreeArchive.Json
