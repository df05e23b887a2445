import TreeArchive.Proofs.JsonReader

/-!
The numbers in a rendered document are numbers by the grammar. Digits never start with a zero that
is not alone, which is what keeps a double's text from starting with one.
-/
namespace TreeArchive.Json

open Decimal

variable {whole digits tail input rest : List Char} {c : Char}

/-- No digit comes first. -/
def NoDigitFirst (input : List Char) : Prop :=
  ∀ c ∈ input.head?, c.isDigit = false

theorem takeWhile_digits (hdigits : ∀ c ∈ digits, c.isDigit = true) (htail : NoDigitFirst tail) :
    (digits ++ tail).takeWhile Char.isDigit = digits ∧
      (digits ++ tail).dropWhile Char.isDigit = tail := by
  rw [List.takeWhile_append_of_pos hdigits, List.dropWhile_append_of_pos hdigits]
  cases tail with
  | nil => simp
  | cons c rest => simp [htail c rfl]

theorem isDigits_iff : isDigits input = true ↔ input ≠ [] ∧ ∀ c ∈ input, c.isDigit = true := by
  simp [isDigits, List.all_eq_true]

theorem isWhole_iff : isWhole input = true ↔
    (input ≠ [] ∧ ∀ c ∈ input, c.isDigit = true) ∧ (input = ['0'] ∨ input.head? ≠ some '0') := by
  rw [isWhole, Bool.and_eq_true, isDigits_iff]
  simp

/-- A whole number and what stands behind it make a number if that is a fraction. -/
theorem isNumber_append (hwhole : isWhole whole = true) (htail : NoDigitFirst tail) :
    isNumber (whole ++ tail) = isFraction tail := by
  obtain ⟨⟨hne, hdigits⟩, -⟩ := isWhole_iff.1 hwhole
  obtain ⟨htake, hdrop⟩ := takeWhile_digits hdigits htail
  have hunsigned : dropMinus (whole ++ tail) = whole ++ tail := by
    obtain ⟨d, ds, rfl⟩ := List.exists_cons_of_ne_nil hne
    have hd : d ≠ '-' := by
      rintro rfl
      exact absurd (hdigits '-' List.mem_cons_self) (by decide)
    rw [List.cons_append, dropMinus]
    rintro _ ⟨⟩
    exact hd rfl
  rw [isNumber, hunsigned, htake, hdrop, hwhole, Bool.true_and]

theorem isFraction_append (hdigits : isDigits digits = true) (htail : NoDigitFirst tail) :
    isFraction ('.' :: (digits ++ tail)) = isExponent tail := by
  obtain ⟨hne, hall⟩ := isDigits_iff.1 hdigits
  obtain ⟨htake, hdrop⟩ := takeWhile_digits hall htail
  simp [isFraction, htake, hdrop, hne]

/-! A number has no other characters than those it is told from the rest by. -/

theorem isNumberChar_of_isDigit (h : c.isDigit = true) : isNumberChar c = true := by
  simp [isNumberChar, h]

theorem isNumberChar_dropMinus (h : ∀ c ∈ dropMinus input, isNumberChar c = true) :
    ∀ c ∈ input, isNumberChar c = true := by
  unfold dropMinus at h
  split at h
  · exact List.forall_mem_cons.2 ⟨rfl, h⟩
  · exact h

theorem isNumberChar_dropSign (h : ∀ c ∈ dropSign input, isNumberChar c = true) :
    ∀ c ∈ input, isNumberChar c = true := by
  unfold dropSign at h
  split at h
  · exact List.forall_mem_cons.2 ⟨rfl, h⟩
  · exact isNumberChar_dropMinus h

theorem isNumberChar_of_isExponent (h : isExponent input = true) :
    ∀ c ∈ input, isNumberChar c = true := by
  cases input with
  | nil => simp
  | cons mark rest =>
    simp only [isExponent, Bool.and_eq_true, Bool.or_eq_true, beq_iff_eq] at h
    refine List.forall_mem_cons.2 ⟨?_, isNumberChar_dropSign fun c hc => ?_⟩
    · rcases h.1 with rfl | rfl <;> rfl
    · exact isNumberChar_of_isDigit ((isDigits_iff.1 h.2).2 c hc)

theorem isNumberChar_takeWhile : ∀ c ∈ input.takeWhile Char.isDigit, isNumberChar c = true :=
  fun _ hc => isNumberChar_of_isDigit (List.mem_takeWhile_imp hc)

theorem isNumberChar_of_isFraction (h : isFraction input = true) :
    ∀ c ∈ input, isNumberChar c = true := by
  unfold isFraction at h
  split at h
  · rename_i rest
    rw [Bool.and_eq_true] at h
    refine List.forall_mem_cons.2 ⟨rfl, ?_⟩
    rw [← List.takeWhile_append_dropWhile (p := Char.isDigit) (l := rest)]
    exact List.forall_mem_append.2 ⟨isNumberChar_takeWhile, isNumberChar_of_isExponent h.2⟩
  · exact isNumberChar_of_isExponent h

theorem isNumberChar_of_isNumber (h : isNumber input = true) :
    ∀ c ∈ input, isNumberChar c = true := by
  rw [isNumber, Bool.and_eq_true] at h
  apply isNumberChar_dropMinus
  rw [← List.takeWhile_append_dropWhile (p := Char.isDigit) (l := dropMinus input)]
  exact List.forall_mem_append.2 ⟨isNumberChar_takeWhile, isNumberChar_of_isFraction h.2⟩

/-- A number is read up to its end, where no character of a number follows it. -/
theorem readNumber_append (h : isNumber input = true)
    (hrest : ∀ c ∈ rest.head?, isNumberChar c = false) :
    readNumber (input ++ rest) = some (ofNumber input, rest) := by
  have hchars := isNumberChar_of_isNumber h
  have hend : rest.takeWhile isNumberChar = [] ∧ rest.dropWhile isNumberChar = rest := by
    cases rest with
    | nil => simp
    | cons c rest => simp [hrest c rfl]
  rw [readNumber, List.takeWhile_append_of_pos hchars, List.dropWhile_append_of_pos hchars, hend.1,
    hend.2, List.append_nil, if_pos h]

/-- What a number starts with tells it from any other value. -/
theorem exists_cons_of_isNumber (h : isNumber input = true) :
    ∃ c rest, input = c :: rest ∧ (c = '-' ∨ c.isDigit = true) := by
  cases input with
  | nil => cases h
  | cons c rest =>
    refine ⟨c, rest, rfl, ?_⟩
    by_cases hc : c = '-'
    · exact .inl hc
    · right
      rw [isNumber, Bool.and_eq_true, dropMinus] at h
      · by_contra hdigit
        have hnone : (c :: rest).takeWhile Char.isDigit = [] := by simp [hdigit]
        rw [hnone] at h
        cases h.1
      · rintro _ ⟨⟩
        exact hc rfl

/-! The digits of a number, and the text of a double. -/

theorem isExponent_digits {mark : Char} (hmark : mark = '+' ∨ mark = '-')
    (hdigits : isDigits digits = true) : isExponent ('e' :: mark :: digits) = true := by
  rcases hmark with rfl | rfl <;> simpa [isExponent, dropSign, dropMinus] using hdigits

theorem isDigits_digits (n : Nat) : isDigits (Decimal.digits n) = true :=
  isDigits_iff.2 ⟨Nat.toDigits_ne_nil,
    fun _ hc => Nat.isDigit_of_mem_toDigits (by omega) (by omega) hc⟩

/-- Only zero is written with a zero in front. -/
theorem eq_zero_of_head?_digits {n : Nat} (h : (Decimal.digits n).head? = some '0') : n = 0 := by
  induction n using Nat.strongRecOn with
  | ind n ih =>
    by_cases hsmall : n < 10
    · have hdigit : (Nat.toDigits 10 n).head? = some '0' := h
      rw [Nat.toDigits_of_lt_base hsmall, List.head?_cons, Option.some.injEq] at hdigit
      have hall : ∀ m < 10, Nat.digitChar m = '0' → m = 0 := by decide
      exact hall n hsmall hdigit
    · have hdigits : Decimal.digits n =
          Decimal.digits (n / 10) ++ [Nat.digitChar (n % 10)] :=
        Nat.toDigits_of_base_le (by omega) (by omega)
      have hne : Decimal.digits (n / 10) ≠ [] := Nat.toDigits_ne_nil
      rw [hdigits, List.head?_append_of_ne_nil _ hne] at h
      have hzero := ih (n / 10) (by omega) h
      omega

theorem isWhole_digits (n : Nat) : isWhole (Decimal.digits n) = true := by
  rw [isWhole_iff, ← isDigits_iff]
  refine ⟨isDigits_digits n, ?_⟩
  by_cases h : (Decimal.digits n).head? = some '0'
  · left
    rw [eq_zero_of_head?_digits h]
    rfl
  · exact .inr h

theorem shortest_cases (x : Binary64) :
    x.shortest.digits = [] ∨ ∃ n unit, x.shortest = Binary64.trimZeros n unit := by
  unfold Binary64.shortest
  split
  · exact .inl rfl
  · split
    · exact .inr ⟨_, _, rfl⟩
    · exact .inl rfl

/-- What is left of a number's digits without the zeros at their end starts as the number does. -/
theorem digits_trimZeros (n : Nat) (unit : Int) :
    (Binary64.trimZeros n unit).digits <+: Decimal.digits n := by
  rw [← List.reverse_suffix, Binary64.trimZeros, List.reverse_reverse]
  exact List.dropWhile_suffix _

/-- A double's digits are digits, and the first of them is not zero. -/
theorem digits_shortest (x : Binary64) :
    (∀ c ∈ x.shortest.digits, c.isDigit = true) ∧ x.shortest.digits.head? ≠ some '0' := by
  rcases shortest_cases x with hnil | ⟨n, unit, hshortest⟩
  · simp [hnil]
  · rw [hshortest]
    have hinit := digits_trimZeros n unit
    refine ⟨fun c hc => (isDigits_iff.1 (isDigits_digits n)).2 c (hinit.subset hc), ?_⟩
    intro hhead
    have hzero : (Decimal.digits n).head? = some '0' := by
      obtain ⟨rest, hrest⟩ := hinit
      rw [← hrest, List.head?_append, hhead]
      rfl
    -- all of zero's digits are taken away
    obtain rfl := eq_zero_of_head?_digits hzero
    cases hhead

theorem isWhole_of_digits (hdigits : isDigits digits = true) (hhead : digits.head? ≠ some '0')
    (rest : List Char) (hrest : ∀ c ∈ rest, c.isDigit = true) :
    isWhole (digits ++ rest) = true := by
  obtain ⟨hne, hall⟩ := isDigits_iff.1 hdigits
  rw [isWhole_iff]
  refine ⟨⟨by simp [hne], ?_⟩, .inr ?_⟩
  · intro c hc
    rcases List.mem_append.1 hc with hc | hc
    · exact hall c hc
    · exact hrest c hc
  · rwa [List.head?_append_of_ne_nil _ hne]

theorem isDigits_take {n : Nat} (hdigits : isDigits digits = true) (hn : 0 < n) :
    isDigits (digits.take n) = true ∧ (digits.take n).head? = digits.head? := by
  obtain ⟨hne, hall⟩ := isDigits_iff.1 hdigits
  refine ⟨isDigits_iff.2 ⟨?_, fun c hc => hall c (List.mem_of_mem_take hc)⟩, ?_⟩
  · simp [hne, Nat.ne_of_gt hn]
  · rw [List.head?_take, if_neg (by omega)]

theorem isDigits_drop {n : Nat} (hdigits : isDigits digits = true) (hn : n < digits.length) :
    isDigits (digits.drop n) = true :=
  isDigits_iff.2 ⟨by simpa using hn, fun c hc =>
    (isDigits_iff.1 hdigits).2 c (List.mem_of_mem_drop hc)⟩

/-- However a double is laid out, its text is a number. -/
theorem isNumber_realText (x : Binary64) : isNumber (realText x) = true := by
  have hnil : NoDigitFirst [] := by simp [NoDigitFirst]
  have hpoint (rest : List Char) : NoDigitFirst ('.' :: rest) := by
    rintro c ⟨⟩
    rfl
  have hmark (rest : List Char) : NoDigitFirst ('e' :: rest) := by
    rintro c ⟨⟩
    rfl
  obtain ⟨hdigits, hhead⟩ := digits_shortest x
  unfold realText
  dsimp only
  split
  · rfl
  rename_i hne
  have hall : isDigits x.shortest.digits = true := isDigits_iff.2 ⟨by simpa using hne, hdigits⟩
  have hlength : 0 < x.shortest.digits.length :=
    List.length_pos_iff.2 (isDigits_iff.1 hall).1
  split
  · -- all places are before the point
    rw [isNumber_append (isWhole_of_digits hall hhead _ _) (hpoint _)]
    · rfl
    · intro c hc
      rw [(List.mem_replicate.1 hc).2]
      rfl
  split
  · -- the point is among the places
    obtain ⟨htake, hfirst⟩ := isDigits_take (n := x.shortest.point.toNat) hall (by omega)
    have hwhole := isWhole_of_digits htake (by rwa [hfirst]) [] (by simp)
    rw [List.append_nil] at hwhole
    have hdrop := isDigits_drop (n := x.shortest.point.toNat) hall (by omega)
    rw [isNumber_append hwhole (hpoint _), ← List.append_nil (List.drop _ _),
      isFraction_append hdrop hnil]
    rfl
  split
  · -- zeros stand between the point and the places
    have hplaces : isDigits (List.replicate (-x.shortest.point).toNat '0' ++ x.shortest.digits) =
        true := by
      refine isDigits_iff.2 ⟨List.append_ne_nil_of_right_ne_nil _ (isDigits_iff.1 hall).1, ?_⟩
      intro c hc
      rcases List.mem_append.1 hc with hc | hc
      · rw [(List.mem_replicate.1 hc).2]
        rfl
      · exact hdigits c hc
    have hzero : isWhole ['0'] = true := rfl
    have hnumber := (isNumber_append hzero (hpoint _)).trans (isFraction_append hplaces hnil)
    rw [List.append_nil] at hnumber
    exact hnumber
  · -- one place, the others behind the point, and an exponent
    obtain ⟨htake, hfirst⟩ := isDigits_take (n := 1) hall (by omega)
    have hwhole := isWhole_of_digits htake (by rwa [hfirst]) [] (by simp)
    rw [List.append_nil] at hwhole
    have hexponent (power : Int) : isExponent ('e' :: (if power < 0 then '-' else '+') ::
        Decimal.digits power.natAbs) = true := by
      apply isExponent_digits _ (isDigits_digits _)
      split <;> simp
    rw [List.append_assoc]
    split
    · rw [List.nil_append, isNumber_append hwhole (hmark _)]
      exact hexponent _
    · have htail : isDigits x.shortest.digits.tail = true := by
        rw [← List.drop_one]
        exact isDigits_drop hall (by omega)
      rw [List.cons_append, isNumber_append hwhole (hpoint _),
        isFraction_append htail (hmark _)]
      exact hexponent _

end TreeArchive.Json
