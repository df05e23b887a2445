import TreeArchive.Proofs.JsonNumber

/-!
A rendered document is a JSON text, and reading it gives what the document says: the same texts,
numbers, order and nesting.
-/
namespace TreeArchive.Json

mutual

/-- What a document says. -/
def value : Json → Value
  | .bool value => .bool value
  | .number value => .whole value
  | .real value => .numeral (String.ofList (realText value))
  | .text value => .text value
  | .array items => .array (values items)
  | .object fields => .object (fieldValues fields)

def values : List Json → List Value
  | [] => []
  | item :: items => item.value :: values items

def fieldValues : List (String × Json) → List (String × Value)
  | [] => []
  | (name, field) :: fields => (name, field.value) :: fieldValues fields

end

theorem values_eq_map (items : List Json) : values items = items.map value := by
  induction items with
  | nil => rfl
  | cons item items ih => rw [values, ih, List.map_cons]

variable {c : Char} {input rest : List Char} {fuel depth : Nat}

theorem skipBlanks_newLine (depth : Nat) (input : List Char) :
    skipBlanks (newLine depth ++ input) = skipBlanks input := by
  rw [skipBlanks, skipBlanks, newLine, List.dropWhile_append_of_pos]
  intro c hc
  rcases List.mem_cons.1 hc with rfl | hc
  · rfl
  · rw [(List.mem_replicate.1 hc).2]
    rfl

theorem skipBlanks_cons (h : isBlank c = false) (rest : List Char) :
    skipBlanks (c :: rest) = c :: rest := by
  simp [skipBlanks, h]

theorem skipBlanks_blank (h : isBlank c = true) (rest : List Char) :
    skipBlanks (c :: rest) = skipBlanks rest := by
  simp [skipBlanks, h]

/-- Blanks in front of a value make no difference. -/
theorem readValue_congr (h : skipBlanks input = skipBlanks rest) :
    readValue fuel input = readValue fuel rest := by
  cases fuel with
  | zero => rfl
  | succ fuel => rw [readValue, readValue, h]

theorem readItems_newLine : readItems fuel (newLine depth ++ input) = readItems fuel input := by
  cases fuel with
  | zero => rfl
  | succ fuel => rw [readItems, readItems, readValue_congr (skipBlanks_newLine depth input)]

theorem readFields_newLine : readFields fuel (newLine depth ++ input) = readFields fuel input := by
  cases fuel with
  | zero => rfl
  | succ fuel => rw [readFields, readFields, skipBlanks_newLine]

/-- What may follow a number. -/
def EndsNumber (rest : List Char) : Prop :=
  ∀ c ∈ rest.head?, isNumberChar c = false

section FirstOfNumber

variable {d : Char} (hc : c = '-' ∨ c.isDigit = true)
include hc

theorem ne_of_first (hd : d ≠ '-' ∧ d.isDigit = false) : c ≠ d := by
  rintro rfl
  rcases hc with rfl | hc
  · exact hd.1 rfl
  · rw [hc] at hd
    cases hd.2

theorem isBlank_of_first : isBlank c = false := by
  have hblank (d : Char) (hd : d ≠ '-' ∧ d.isDigit = false) : (c == d) = false :=
    beq_eq_false_iff_ne.2 (ne_of_first hc hd)
  rw [isBlank, hblank ' ' (by decide), hblank '\n' (by decide), hblank '\r' (by decide),
    hblank '\t' (by decide)]
  rfl

end FirstOfNumber

theorem readValue_number (h : isNumber input = true) (hrest : EndsNumber rest) :
    readValue (fuel + 1) (input ++ rest) = some (ofNumber input, rest) := by
  have hread := readNumber_append h hrest
  obtain ⟨c, more, rfl, hc⟩ := exists_cons_of_isNumber h
  rw [List.cons_append] at hread ⊢
  rw [readValue, skipBlanks_cons (isBlank_of_first hc)]
  dsimp only
  -- the first character of a number opens no other value
  rw [if_neg (ne_of_first hc (by decide)), if_neg (ne_of_first hc (by decide)),
    if_neg (ne_of_first hc (by decide)), if_neg (ne_of_first hc (by decide)),
    if_neg (ne_of_first hc (by decide)), if_neg (ne_of_first hc (by decide))]
  exact hread

theorem ofNumber_digits (n : Nat) : ofNumber (Decimal.digits n) = .whole n := by
  have hall : (Decimal.digits n).all Char.isDigit = true :=
    List.all_eq_true.2 (isDigits_iff.1 (isDigits_digits n)).2
  rw [ofNumber, if_pos hall]
  exact congrArg _ (Nat.ofDigitChars_toDigits (by omega) (by omega))

theorem ofNumber_realText (x : Decimal.Binary64) :
    ofNumber (realText x) = .numeral (String.ofList (realText x)) := by
  have hmark : '.' ∈ realText x ∨ 'e' ∈ realText x := by
    unfold realText
    dsimp only
    repeat' split
    all_goals simp
  have hall : ¬(realText x).all Char.isDigit = true := by
    rw [List.all_eq_true]
    intro h
    rcases hmark with hmark | hmark
    · cases h _ hmark
    · cases h _ hmark
  rw [ofNumber, if_neg hall]

theorem isNumber_digits (n : Nat) : isNumber (Decimal.digits n) = true := by
  have htail : NoDigitFirst [] := by simp [NoDigitFirst]
  have h := isNumber_append (isWhole_digits n) htail
  rwa [List.append_nil] at h

/-- A document starts with no blank, and with no bracket or brace that closes. -/
theorem exists_cons_of_layout (j : Json) (depth : Nat) :
    ∃ c rest, layout depth j = c :: rest ∧ isBlank c = false ∧ c ≠ ']' := by
  have hnumber {input : List Char} (h : isNumber input = true) :
      ∃ c rest, input = c :: rest ∧ isBlank c = false ∧ c ≠ ']' := by
    obtain ⟨c, rest, rfl, hc⟩ := exists_cons_of_isNumber h
    exact ⟨c, rest, rfl, isBlank_of_first hc, ne_of_first hc (by decide)⟩
  cases j with
  | bool value => cases value <;> exact ⟨_, _, rfl, rfl, by decide⟩
  | number n => exact hnumber (isNumber_digits n)
  | real x => exact hnumber (isNumber_realText x)
  | text s => exact ⟨_, _, rfl, rfl, by decide⟩
  | array items => cases items <;> exact ⟨_, _, rfl, rfl, by decide⟩
  | object fields =>
    rcases fields with _ | ⟨⟨name, value⟩, fields⟩ <;> exact ⟨_, _, rfl, rfl, by decide⟩

theorem readValue_text (s : String) (rest : List Char) :
    readValue (fuel + 1) (quoted s ++ rest) = some (.text s, rest) := by
  have hread : readText (s.toList.flatMap escape ++ ['"'] ++ rest) = some (s.toList, rest) := by
    rw [List.append_assoc]
    exact readText_quoted s rest
  rw [quoted, List.cons_append, readValue, skipBlanks_cons rfl]
  dsimp only
  rw [if_pos rfl, hread, Option.map_some, String.ofList_toList]

theorem endsNumber_newLine (depth : Nat) (rest : List Char) :
    EndsNumber (newLine depth ++ rest) := by
  rintro c ⟨⟩
  rfl

theorem endsNumber_cons (h : isNumberChar c = false) (rest : List Char) :
    EndsNumber (c :: rest) := by
  rintro c ⟨⟩
  exact h

/-- An array that is not empty is read as its items. -/
theorem readValue_array {items : List Value} (depth : Nat) (hc : isBlank c = false)
    (hclose : c ≠ ']') (h : readItems fuel (c :: input) = some (items, rest)) :
    readValue (fuel + 1) ('[' :: (newLine depth ++ c :: input)) = some (.array items, rest) := by
  rw [readValue, skipBlanks_cons rfl]
  dsimp only
  rw [if_neg (by decide), if_pos rfl, skipBlanks_newLine, skipBlanks_cons hc]
  split
  · rename_i heq
    exact absurd (List.cons.inj heq).1 hclose
  · rw [h, Option.map_some]

theorem readValue_object {fields : List (String × Value)} (depth : Nat)
    (h : readFields fuel ('"' :: input) = some (fields, rest)) :
    readValue (fuel + 1) ('\x7b' :: (newLine depth ++ '"' :: input)) =
      some (.object fields, rest) := by
  rw [readValue, skipBlanks_cons rfl]
  dsimp only
  rw [if_neg (by decide), if_neg (by decide), if_pos rfl, skipBlanks_newLine, skipBlanks_cons rfl]
  split
  · rename_i heq
    exact absurd (List.cons.inj heq).1 (by decide)
  · rw [h, Option.map_some]

/-- The reader reads back whatever fits its fuel. Every call that it makes has less fuel, and what
is left to read is shorter by as much at least. -/
structure Reads (fuel : Nat) : Prop where
  value (j : Json) (depth : Nat) (rest : List Char) (hfuel : (layout depth j).length ≤ fuel)
    (hrest : EndsNumber rest) : readValue fuel (layout depth j ++ rest) = some (j.value, rest)
  items (item : Json) (items : List Json) (depth outer : Nat) (rest : List Char)
    (hfuel : (layout depth item).length + (layoutItems depth items).length < fuel) :
    readItems fuel (layout depth item ++ (layoutItems depth items ++
      (newLine outer ++ ']' :: rest))) = some (values (item :: items), rest)
  fields (name : String) (field : Json) (fields : List (String × Json)) (depth outer : Nat)
    (rest : List Char)
    (hfuel : (layout depth field).length + (layoutFields depth fields).length < fuel) :
    readFields fuel (quoted name ++ ':' :: ' ' :: (layout depth field ++
      (layoutFields depth fields ++ (newLine outer ++ '\x7d' :: rest)))) =
        some (fieldValues ((name, field) :: fields), rest)

theorem Reads.value_step (h : Reads fuel) (j : Json) (depth : Nat) (rest : List Char)
    (hfuel : (layout depth j).length ≤ fuel + 1) (hrest : EndsNumber rest) :
    readValue (fuel + 1) (layout depth j ++ rest) = some (j.value, rest) := by
  match j with
  | .bool true => rfl
  | .bool false => rfl
  | .number n =>
    rw [layout, Json.value, ← ofNumber_digits]
    exact readValue_number (isNumber_digits n) hrest
  | .real x =>
    rw [layout, Json.value, ← ofNumber_realText]
    exact readValue_number (isNumber_realText x) hrest
  | .text s => exact readValue_text s rest
  | .array [] => rfl
  | .array (item :: items) =>
    simp only [layout, newLine, List.length_cons, List.length_append, List.length_replicate,
      List.length_nil] at hfuel
    have hitems := h.items item items (depth + 1) depth rest (by omega)
    obtain ⟨c, more, hitem, hc, hclose⟩ := exists_cons_of_layout item (depth + 1)
    rw [hitem, List.cons_append] at hitems
    have hread := readValue_array (depth + 1) hc hclose hitems
    rw [layout, Json.value, hitem]
    simpa only [List.append_assoc, List.cons_append, List.nil_append] using hread
  | .object [] => rfl
  | .object ((name, field) :: fields) =>
    simp only [layout, newLine, List.length_cons, List.length_append, List.length_replicate,
      List.length_nil] at hfuel
    have hfields := h.fields name field fields (depth + 1) depth rest (by omega)
    rw [quoted, List.cons_append] at hfields
    have hread := readValue_object (depth + 1) hfields
    rw [layout, Json.value, quoted]
    simpa only [List.append_assoc, List.cons_append, List.nil_append] using hread

theorem Reads.items_step (h : Reads fuel) (item : Json) (items : List Json) (depth outer : Nat)
    (rest : List Char)
    (hfuel : (layout depth item).length + (layoutItems depth items).length < fuel + 1) :
    readItems (fuel + 1) (layout depth item ++ (layoutItems depth items ++
      (newLine outer ++ ']' :: rest))) = some (values (item :: items), rest) := by
  cases items with
  | nil =>
    have hitem := h.value item depth _ (by omega) (endsNumber_newLine outer (']' :: rest))
    simp only [readItems, layoutItems, List.nil_append, hitem, Option.bind_eq_bind,
      Option.bind_some, skipBlanks_newLine, skipBlanks_cons (c := ']') rfl, values]
  | cons next items =>
    simp only [layoutItems, newLine, List.length_cons, List.length_append,
      List.length_replicate] at hfuel
    have hitem := h.value item depth (',' :: (newLine depth ++ (layout depth next ++
        (layoutItems depth items ++ (newLine outer ++ ']' :: rest))))) (by omega)
      (endsNumber_cons rfl _)
    have hitems := h.items next items depth outer rest (by omega)
    rw [readItems, layoutItems]
    simp only [List.append_assoc, List.cons_append, hitem, Option.bind_eq_bind, Option.bind_some,
      skipBlanks_cons (c := ',') rfl, readItems_newLine, hitems, Option.map_some, values]

theorem Reads.fields_step (h : Reads fuel) (name : String) (field : Json)
    (fields : List (String × Json)) (depth outer : Nat) (rest : List Char)
    (hfuel : (layout depth field).length + (layoutFields depth fields).length < fuel + 1) :
    readFields (fuel + 1) (quoted name ++ ':' :: ' ' :: (layout depth field ++
      (layoutFields depth fields ++ (newLine outer ++ '\x7d' :: rest)))) =
        some (fieldValues ((name, field) :: fields), rest) := by
  have hblank (input : List Char) : readValue fuel (' ' :: input) = readValue fuel input :=
    readValue_congr (skipBlanks_blank rfl input)
  rw [quoted, List.cons_append, List.append_assoc, readFields, skipBlanks_cons rfl]
  simp only [List.cons_append, List.nil_append, readText_quoted, Option.bind_eq_bind,
    Option.bind_some, skipBlanks_cons (c := ':') rfl, hblank, String.ofList_toList]
  cases fields with
  | nil =>
    have hfield := h.value field depth _ (by omega) (endsNumber_newLine outer ('\x7d' :: rest))
    simp only [layoutFields, List.nil_append, hfield, Option.bind_some, skipBlanks_newLine,
      skipBlanks_cons (c := '\x7d') rfl, fieldValues]
  | cons next fields =>
    obtain ⟨nextName, next⟩ := next
    simp only [layoutFields, newLine, List.length_cons, List.length_append,
      List.length_replicate] at hfuel
    have hfield := h.value field depth (',' :: (newLine depth ++ (quoted nextName ++ ':' :: ' ' ::
      (layout depth next ++ (layoutFields depth fields ++ (newLine outer ++ '\x7d' :: rest))))))
      (by omega) (endsNumber_cons rfl _)
    have hfields := h.fields nextName next fields depth outer rest (by omega)
    rw [layoutFields]
    simp only [List.append_assoc, List.cons_append, hfield, Option.bind_some,
      skipBlanks_cons (c := ',') rfl, readFields_newLine, hfields, Option.map_some, fieldValues]

theorem reads (fuel : Nat) : Reads fuel := by
  induction fuel with
  | zero =>
    refine ⟨?_, fun _ _ _ _ _ h => absurd h (by omega), fun _ _ _ _ _ _ h => absurd h (by omega)⟩
    intro j depth rest hfuel _
    obtain ⟨c, more, hlayout, -⟩ := exists_cons_of_layout j depth
    rw [hlayout] at hfuel
    cases hfuel
  | succ fuel ih => exact ⟨ih.value_step, ih.items_step, ih.fields_step⟩

/-- A rendered document reads as what it says. -/
theorem read?_render (j : Json) : read? j.render = some j.value := by
  have hlength : j.render.length = (layout 0 j).length := by
    rw [render, String.length_ofList]
  have hread := (reads (j.render.length + 1)).value j 0 [] (by omega) (by simp [EndsNumber])
  rw [List.append_nil] at hread
  rw [read?, render, String.toList_ofList, ← render, hread]
  rfl

end TreeArchive.Json
