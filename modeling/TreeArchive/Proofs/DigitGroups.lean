import TreeArchive.Decimal.Grouped
import TreeArchive.Proofs.RelativeGrammar

/-!
Digits in groups. Groups of three are cut from the end of a number, and what is left comes first.
The digits and the sizes of the groups determine the text: it is the only one with the digits of the
number whose parts between commas are such groups.
-/
namespace TreeArchive

namespace Text

universe u
variable {α : Type u} [BEq α] [LawfulBEq α]

/-- The parts between separators together are all but the separators. -/
theorem flatten_splitOn (sep : α) (s : List α) :
    (s.splitOn sep).flatten = s.filter (· != sep) := by
  induction s with
  | nil => rfl
  | cons a rest ih =>
    rw [List.splitOn_cons_eq_if_modifyHead]
    by_cases ha : a = sep
    · simp [ha, ih]
    · obtain ⟨part, others, hparts⟩ := List.exists_cons_of_ne_nil (List.splitOn_ne_nil sep rest)
      rw [hparts, List.flatten_cons] at ih
      simp [ha, hparts, ih]

end Text

namespace Decimal

variable {n : Nat} {text : String} {parts parts' : List (List Char)}

def withoutCommas (text : String) : String :=
  String.ofList (text.toList.filter (· != ','))

def betweenCommas (text : String) : List (List Char) :=
  text.toList.splitOn ','

/-- Groups of three digits, the first of one to three. -/
structure AreGroups (parts : List (List Char)) : Prop where
  digits : ∀ part ∈ parts, part.all Char.isDigit = true
  first : ∃ part ∈ parts.head?, 0 < part.length ∧ part.length ≤ 3
  others : ∀ part ∈ parts.tail, part.length = 3

instance : DecidablePred AreGroups := fun parts =>
  decidable_of_iff
    ((∀ part ∈ parts, part.all Char.isDigit = true) ∧
      (∃ part ∈ parts.head?, 0 < part.length ∧ part.length ≤ 3) ∧
      ∀ part ∈ parts.tail, part.length = 3)
    ⟨fun h => ⟨h.1, h.2.1, h.2.2⟩, fun h => ⟨h.digits, h.first, h.others⟩⟩

example : AreGroups (betweenCommas "12,345") ∧ ¬AreGroups (betweenCommas "123,45") := by decide

theorem flatten_betweenCommas (text : String) :
    (betweenCommas text).flatten = (withoutCommas text).toList := by
  rw [betweenCommas, Text.flatten_splitOn, withoutCommas, String.toList_ofList]

theorem intercalate_betweenCommas (text : String) :
    String.ofList ([','].intercalate (betweenCommas text)) = text := by
  rw [betweenCommas, List.intercalate_splitOn, String.ofList_toList]

/-! Groups cut from the front, as the digits are read from the last one on. -/

/-- Groups of three; the last takes what is left. -/
def threes : List Char → List (List Char)
  | a :: b :: c :: d :: rest => [a, b, c] :: threes (d :: rest)
  | s => [s]

variable {room : Nat} {s : List Char}

theorem length_le_of_short (h : ∀ a b c d rest, s ≠ a :: b :: c :: d :: rest) : s.length ≤ 3 := by
  match s, h with
  | [], _ => exact Nat.zero_le 3
  | [_], _ => exact Nat.le_add_left 1 2
  | [_, _], _ => exact Nat.le_add_left 2 1
  | [_, _, _], _ => exact Nat.le_refl 3
  | a :: b :: c :: d :: rest, h => exact absurd rfl (h a b c d rest)

theorem threes_ne_nil (s : List Char) : threes s ≠ [] := by
  unfold threes
  split <;> exact List.cons_ne_nil _ _

/-- What has room in the first group is written without a comma. -/
theorem groupFrom_of_length_le (h : s.length ≤ room) : groupFrom room s = s := by
  induction s generalizing room with
  | nil => rfl
  | cons c rest ih =>
    cases room with
    | zero => exact absurd h (Nat.not_succ_le_zero _)
    | succ room => rw [groupFrom, ih (Nat.le_of_succ_le_succ h)]

theorem groupFrom_eq_intercalate (s : List Char) :
    groupFrom 3 s = [','].intercalate (threes s) := by
  fun_induction threes s with
  | case1 a b c d rest ih =>
    -- behind a full group the next starts with three places again
    have hstep : groupFrom 3 (a :: b :: c :: d :: rest) =
        [a, b, c] ++ ',' :: groupFrom 3 (d :: rest) := rfl
    rw [hstep, ih, List.intercalate_cons_of_ne_nil (threes_ne_nil _), List.append_assoc,
      List.singleton_append]
  | case2 s hshort =>
    rw [List.intercalate_singleton]
    exact groupFrom_of_length_le (length_le_of_short hshort)

theorem flatten_threes (s : List Char) : (threes s).flatten = s := by
  fun_induction threes s with
  | case1 a b c d rest ih => rw [List.flatten_cons, ih]; rfl
  | case2 s => exact List.append_nil s

/-- All groups but the last are full, and the last is not empty. -/
theorem exists_threes_eq (hne : s ≠ []) : ∃ full last, threes s = full ++ [last] ∧
    (∀ part ∈ full, part.length = 3) ∧ 0 < last.length ∧ last.length ≤ 3 := by
  fun_induction threes s with
  | case1 a b c d rest ih =>
    obtain ⟨full, last, heq, hfull, hlast⟩ := ih (List.cons_ne_nil d rest)
    refine ⟨[a, b, c] :: full, last, ?_, ?_, hlast⟩
    · rw [heq, List.cons_append]
    · exact List.forall_mem_cons.2 ⟨rfl, hfull⟩
  | case2 s hshort =>
    exact ⟨[], s, rfl, List.forall_mem_nil _, List.length_pos_of_ne_nil hne,
      length_le_of_short hshort⟩

/-! A written number is made of the groups of its digits, the last first. -/

theorem toList_toString (n : Nat) : (toString n).toList = digits n := by
  rw [Nat.toString_eq_ofList_toDigits, String.toList_ofList, digits]

theorem isDigit_of_mem_digits {c : Char} (h : c ∈ digits n) : c.isDigit = true :=
  Nat.isDigit_of_mem_toDigits (by decide) (by decide) h

theorem betweenCommas_grouped (n : Nat) :
    betweenCommas (grouped n) = ((threes (digits n).reverse).map List.reverse).reverse := by
  have hcomma : ∀ part ∈ threes (digits n).reverse, ',' ∉ part := by
    intro part hpart hmem
    have hflat := List.mem_flatten_of_mem hpart hmem
    rw [flatten_threes, List.mem_reverse] at hflat
    cases isDigit_of_mem_digits hflat
  rw [betweenCommas, grouped, String.toList_ofList, groupFrom_eq_intercalate,
    Text.splitOn_reverse_intercalate (threes_ne_nil _) hcomma]

theorem withoutCommas_grouped (n : Nat) : withoutCommas (grouped n) = toString n := by
  rw [← String.toList_inj, toList_toString]
  calc (withoutCommas (grouped n)).toList
      = ((threes (digits n).reverse).map List.reverse).reverse.flatten := by
        rw [← flatten_betweenCommas, betweenCommas_grouped]
    _ = (threes (digits n).reverse).flatten.reverse := (List.reverse_flatten).symm
    _ = digits n := by rw [flatten_threes, List.reverse_reverse]

theorem areGroups_grouped (n : Nat) : AreGroups (betweenCommas (grouped n)) := by
  have hne : (digits n).reverse ≠ [] := List.reverse_ne_nil_iff.2 Nat.toDigits_ne_nil
  obtain ⟨full, last, heq, hfull, hpos, hle⟩ := exists_threes_eq hne
  -- the group that is cut last is the first in the text
  have hparts : betweenCommas (grouped n) = last.reverse :: (full.map List.reverse).reverse := by
    rw [betweenCommas_grouped, heq, List.map_append, List.reverse_append, List.map_singleton,
      List.reverse_singleton, List.singleton_append]
  constructor
  · intro part hpart
    rw [List.all_eq_true]
    intro c hc
    have hflat := List.mem_flatten_of_mem hpart hc
    rw [flatten_betweenCommas, withoutCommas_grouped, toList_toString] at hflat
    exact isDigit_of_mem_digits hflat
  · refine ⟨last.reverse, ?_, ?_⟩
    · rw [hparts]
      exact rfl
    · rw [List.length_reverse]
      exact ⟨hpos, hle⟩
  · rw [hparts, List.tail_cons]
    intro part hpart
    obtain ⟨group, hgroup, rfl⟩ := List.mem_map.1 (List.mem_reverse.1 hpart)
    rw [List.length_reverse, hfull group hgroup]

/-- How many groups there are, and how long the first is, depends only on the number of digits. -/
theorem AreGroups.map_length (h : AreGroups parts) :
    parts.map List.length = ((parts.flatten.length - 1) % 3 + 1) ::
      List.replicate ((parts.flatten.length - 1) / 3) 3 := by
  obtain ⟨first, hfirst, hpos, hle⟩ := h.first
  obtain ⟨others, rfl⟩ := List.head?_eq_some_iff.1 hfirst
  have hothers : others.map List.length = List.replicate others.length 3 :=
    List.map_eq_replicate_iff.2 h.others
  have hlength : (first :: others).flatten.length = first.length + 3 * others.length := by
    rw [List.length_flatten, List.map_cons, hothers, List.sum_cons, List.sum_replicate]
    simp [Nat.mul_comm]
  -- with one digit taken off, the first group is below three: the remainder of the division
  have hrest : (first.length + 3 * others.length - 1) % 3 + 1 = first.length := by omega
  have hcount : (first.length + 3 * others.length - 1) / 3 = others.length := by omega
  rw [hlength, hrest, hcount, List.map_cons, hothers]

theorem AreGroups.eq_of_flatten_eq (h : AreGroups parts) (h' : AreGroups parts')
    (hflat : parts.flatten = parts'.flatten) : parts = parts' := by
  rw [List.eq_iff_flatten_eq]
  refine ⟨hflat, ?_⟩
  rw [h.map_length, h'.map_length, hflat]

theorem AreGroups.nil_notMem (h : AreGroups parts) : [] ∉ parts := by
  obtain ⟨first, hfirst, hpos, -⟩ := h.first
  obtain ⟨others, rfl⟩ := List.head?_eq_some_iff.1 hfirst
  rw [List.mem_cons, not_or]
  constructor
  · rintro rfl
    exact absurd hpos (Nat.lt_irrefl 0)
  · intro hmem
    cases h.others [] hmem

theorem AreGroups.head?_ne_comma (h : AreGroups (betweenCommas text)) :
    text.toList.head? ≠ some ',' := by
  intro hhead
  obtain ⟨rest, htext⟩ := List.head?_eq_some_iff.1 hhead
  apply h.nil_notMem
  rw [betweenCommas, htext, List.splitOn_cons_eq_if_modifyHead]
  exact List.mem_cons_self

theorem AreGroups.getLast?_ne_comma (h : AreGroups (betweenCommas text)) :
    text.toList.getLast? ≠ some ',' := by
  intro hlast
  obtain ⟨start, htext⟩ := List.getLast?_eq_some_iff.1 hlast
  apply h.nil_notMem
  rw [betweenCommas, htext, List.splitOn_append_cons_self, List.splitOn_nil]
  exact List.mem_append_right _ List.mem_cons_self

/-- The written form of a number is the one text with its digits in groups. -/
theorem eq_grouped_iff :
    text = grouped n ↔ withoutCommas text = toString n ∧ AreGroups (betweenCommas text) := by
  constructor
  · rintro rfl
    exact ⟨withoutCommas_grouped n, areGroups_grouped n⟩
  · rintro ⟨hdigits, hgroups⟩
    have hparts : betweenCommas text = betweenCommas (grouped n) := by
      apply hgroups.eq_of_flatten_eq (areGroups_grouped n)
      rw [flatten_betweenCommas, flatten_betweenCommas, hdigits, withoutCommas_grouped]
    rw [← intercalate_betweenCommas text, hparts, intercalate_betweenCommas]

theorem grouped_injective : Function.Injective grouped := by
  intro m n h
  have hdigits : toString m = toString n := by
    rw [← withoutCommas_grouped m, h, withoutCommas_grouped]
  exact Nat.repr_inj.1 hdigits

/-- Without its commas a grouped number is its decimal digits; the commas stand between groups of
three, the first of one to three, and so neither at the start nor at the end. Different numbers
have different texts, and no other text has these two properties. -/
theorem grouping_is_exact :
    (∀ n, withoutCommas (grouped n) = toString n ∧
      (grouped n).toList.head? ≠ some ',' ∧ (grouped n).toList.getLast? ≠ some ',' ∧
      AreGroups (betweenCommas (grouped n))) ∧
    Function.Injective grouped ∧
    ∀ n text, text = grouped n ↔
      withoutCommas text = toString n ∧ AreGroups (betweenCommas text) := by
  refine ⟨?_, grouped_injective, fun n text => eq_grouped_iff⟩
  intro n
  have hgroups := areGroups_grouped n
  exact ⟨withoutCommas_grouped n, hgroups.head?_ne_comma, hgroups.getLast?_ne_comma, hgroups⟩

example : [0, 999, 1000, 1234567].map grouped = ["0", "999", "1,000", "1,234,567"] := by decide

end Decimal

end TreeArchive
