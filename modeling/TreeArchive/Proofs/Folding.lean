import TreeArchive.Proofs.Components
import TreeArchive.Proofs.Utf8
import TreeArchive.Glob.Pattern

/-!
Lower case and separators. Every rule that looks at the neighbours of a character stops at a
separator, and no letter becomes one, so a text that is folded whole and then cut falls into the
same pieces as one that is cut first.
-/
namespace TreeArchive

open Text

namespace Text

section Pieces

universe u
variable {α : Type u} {isSep : α → Bool}

/-- A text has no separator, or it is a piece, a separator and a text. -/
theorem pieces_induct (isSep : α → Bool) {motive : List α → Prop}
    (single : ∀ s, (∀ a ∈ s, isSep a = false) → motive s)
    (cut : ∀ s sep t, (∀ a ∈ s, isSep a = false) → isSep sep = true → motive t →
      motive (s ++ sep :: t)) (s : List α) : motive s := by
  have htail : ∀ front : List α, (∀ a ∈ front, isSep a = false) → motive (front ++ s) := by
    -- the induction is on what is still to read, with the piece before it as it grows
    induction s with
    | nil =>
      intro front hfront
      rw [List.append_nil]
      exact single front hfront
    | cons a rest ih =>
      intro front hfront
      cases ha : isSep a with
      | true => exact cut front a rest hfront ha (ih [] (by simp))
      | false =>
        rw [List.append_cons]
        apply ih
        intro b hb
        rcases List.mem_append.1 hb with hb | hb
        · exact hfront b hb
        · rwa [List.mem_singleton.1 hb]
  exact htail [] (by simp)

end Pieces

section Lowercase

variable {before before' after after' s t : List Char} {c d sep : Char}

/-- A character before the letters that ends every context case rules look at, and has no case. -/
structure Halts (c : Char) : Prop where
  not_skipped : isSkipped c = false
  not_cased : isCased c = false
  before_letters : c.toNat < 0x61
  kept : ∀ before after, lowerChar before c after = [c]

theorem halts_of_isSeparator (h : RelativePath.isSeparator c = true) : Halts c := by
  simp only [RelativePath.isSeparator, Bool.or_eq_true, beq_iff_eq] at h
  rcases h with rfl | rfl
  · exact ⟨by decide +kernel, by decide +kernel, by decide, fun _ _ => rfl⟩
  · exact ⟨by decide +kernel, by decide +kernel, by decide, fun _ _ => rfl⟩

theorem facesCased_append (h : Halts sep) (s t : List Char) :
    facesCased (s ++ sep :: t) = facesCased s := by
  unfold facesCased
  rw [List.dropWhile_append]
  cases hs : s.dropWhile isSkipped with
  | nil => simp [h.not_skipped, h.not_cased]
  | cons c rest => simp

theorem lowerChar_congr (hbefore : facesCased before = facesCased before')
    (hafter : facesCased after = facesCased after') (c : Char) :
    lowerChar before c after = lowerChar before' c after' := by
  unfold lowerChar
  rw [hbefore, hafter]

/-- What stands before a separator changes nothing behind it. -/
theorem lowerFrom_behind (h : Halts sep) (s t u : List Char) :
    lowerFrom (s ++ sep :: t) u = lowerFrom s u := by
  induction u generalizing s with
  | nil => rfl
  | cons c rest ih =>
    rw [lowerFrom, lowerFrom, lowerChar_congr (facesCased_append h s t) rfl, ← List.cons_append, ih]

/-- What stands behind a separator changes nothing before it. -/
theorem lowerFrom_append (h : Halts sep) (before s t : List Char) :
    lowerFrom before (s ++ sep :: t) =
      lowerFrom before s ++ lowerFrom (s.reverse ++ before) (sep :: t) := by
  induction s generalizing before with
  | nil => rfl
  | cons c rest ih =>
    rw [List.cons_append, lowerFrom, lowerFrom, ih (c :: before),
      lowerChar_congr rfl (facesCased_append h rest t), List.append_assoc, List.reverse_cons,
      List.append_assoc, List.singleton_append]

theorem lowercase_append (h : Halts sep) (s t : List Char) :
    lowercase (s ++ sep :: t) = lowercase s ++ sep :: lowercase t := by
  have hbehind := lowerFrom_behind h [] s.reverse t
  rw [List.nil_append] at hbehind
  rw [lowercase, lowerFrom_append h, lowerFrom, h.kept, List.append_nil, hbehind,
    List.singleton_append]
  rfl

-- the sigma is final in its own component, whatever comes behind the separator
example : lowercase "ΑΣ/Β".toList = "ας/β".toList := by decide +kernel

/-- The lower case of a letter in the table is a character behind the capitals. -/
theorem lowerRuns_bounds : ∀ r ∈ lowerRuns, 0x61 ≤ (r.first : Int) + r.shift ∧
    ((r.last : Int) + r.shift < 0xD800 ∨
      0xDFFF < (r.first : Int) + r.shift ∧ (r.last : Int) + r.shift < 0x110000) := by
  decide +kernel

theorem lowerCode_cases (n : Nat) :
    lowerCode n = n ∨ 0x61 ≤ lowerCode n ∧
      (lowerCode n < 0xD800 ∨ 0xDFFF < lowerCode n ∧ lowerCode n < 0x110000) := by
  unfold lowerCode
  cases hfind : lowerRuns.find? (·.covers n) with
  | none => exact .inl rfl
  | some r =>
    have hbounds := lowerRuns_bounds r (List.mem_of_find?_eq_some hfind)
    have hcovers := List.find?_some hfind
    simp only [CaseRun.covers, Bool.and_eq_true, decide_eq_true_eq] at hcovers
    right
    dsimp only
    omega

theorem toLower_cases (h : c.toNat < 0x80) : c.toLower = c ∨ 0x61 ≤ c.toLower.toNat := by
  have hall : ∀ n < 0x80, (Char.ofNat n).toLower = Char.ofNat n ∨
      0x61 ≤ (Char.ofNat n).toLower.toNat := by decide
  have hc := hall c.toNat h
  rwa [Char.ofNat_toNat] at hc

theorem lowerChar_ne_nil (before : List Char) (c : Char) (after : List Char) :
    lowerChar before c after ≠ [] := by
  unfold lowerChar
  split_ifs <;> exact List.cons_ne_nil _ _

/-- Lower case keeps a character or gives characters behind the capitals. -/
theorem mem_lowerChar (h : d ∈ lowerChar before c after) : d = c ∨ 0x61 ≤ d.toNat := by
  unfold lowerChar at h
  split_ifs at h with hsigma hfinal hdotted hascii
  · right
    rw [List.mem_singleton.1 h]
    decide
  · right
    rw [List.mem_singleton.1 h]
    decide
  · right
    rcases List.mem_pair.1 h with rfl | rfl <;> decide
  · rw [List.mem_singleton.1 h]
    exact toLower_cases hascii
  · rw [List.mem_singleton.1 h]
    rcases lowerCode_cases c.toNat with hcode | ⟨hlow, hvalid⟩
    · left
      rw [hcode, Char.ofNat_toNat]
    · right
      rwa [Utf8.toNat_ofNat_of_valid hvalid]

theorem mem_lowerFrom (h : d ∈ lowerFrom before s) : d ∈ s ∨ 0x61 ≤ d.toNat := by
  induction s generalizing before with
  | nil => cases h
  | cons c rest ih =>
    rw [lowerFrom, List.mem_append] at h
    rcases h with h | h
    · rcases mem_lowerChar h with rfl | hlow
      · exact .inl List.mem_cons_self
      · exact .inr hlow
    · exact (ih h).imp_left (List.mem_cons_of_mem c)

theorem lowerFrom_eq_nil : lowerFrom before s = [] ↔ s = [] := by
  constructor
  · intro h
    cases s with
    | nil => rfl
    | cons c rest => exact absurd (List.append_eq_nil_iff.1 h).1 (lowerChar_ne_nil _ _ _)
  · rintro rfl
    rfl

/-- Only the dot has the dot for its lower case. -/
theorem lowercase_eq_dot : lowercase s = ['.'] ↔ s = ['.'] := by
  constructor
  · intro h
    cases s with
    | nil => cases h
    | cons c rest =>
      rw [lowercase, lowerFrom, List.append_eq_singleton_iff] at h
      rcases h with ⟨hnil, -⟩ | ⟨hdot, hrest⟩
      · exact absurd hnil (lowerChar_ne_nil _ _ _)
      · rw [lowerFrom_eq_nil] at hrest
        rcases mem_lowerChar (hdot ▸ List.mem_singleton_self '.') with rfl | hlow
        · rw [hrest]
        · exact absurd hlow (by decide)
  · rintro rfl
    rfl

/-- Folding a text and cutting it at separators commute. -/
theorem pieces_lowercase {isSep : Char → Bool} (hsep : ∀ c, isSep c = true → Halts c)
    (s : List Char) : pieces isSep (lowercase s) = (pieces isSep s).map lowercase := by
  have hfree (s : List Char) (hs : ∀ a ∈ s, isSep a = false) : ∀ d ∈ lowercase s, isSep d = false
      := by
    intro d hd
    rcases mem_lowerFrom hd with hmem | hlow
    · exact hs d hmem
    · rw [Bool.eq_false_iff]
      intro hd
      exact absurd (hsep d hd).before_letters (by omega)
  induction s using pieces_induct isSep with
  | single s hs => rw [pieces_of_forall hs, pieces_of_forall (hfree s hs), List.map_singleton]
  | cut s sep t hs hcut ih =>
    calc pieces isSep (lowercase (s ++ sep :: t))
        = pieces isSep (lowercase s ++ sep :: lowercase t) := by
          rw [lowercase_append (hsep sep hcut)]
      _ = pieces isSep (lowercase s) ++ pieces isSep (lowercase t) := pieces_append hcut _ _
      _ = [lowercase s] ++ (pieces isSep t).map lowercase := by
          rw [pieces_of_forall (hfree s hs), ih]
      _ = (pieces isSep (s ++ sep :: t)).map lowercase := by
          rw [pieces_append hcut, pieces_of_forall hs, List.map_append, List.map_singleton]

end Lowercase

end Text

namespace Pattern

variable {caseSensitive : Bool} {text : List Char}

theorem pieces_fold {isSep : Char → Bool} (hsep : ∀ c, isSep c = true → Halts c) :
    pieces isSep (fold caseSensitive text) = (pieces isSep text).map (fold caseSensitive) := by
  cases caseSensitive with
  | true =>
    have hfold : fold true = id := rfl
    rw [hfold, List.map_id, id_eq]
  | false => exact pieces_lowercase hsep text

theorem isEmpty_fold : (fold caseSensitive text).isEmpty = text.isEmpty := by
  cases caseSensitive with
  | true => rfl
  | false =>
    rw [Bool.eq_iff_iff, List.isEmpty_iff, List.isEmpty_iff]
    exact lowerFrom_eq_nil

theorem fold_bne_dot : (fold caseSensitive text != ['.']) = (text != ['.']) := by
  cases caseSensitive with
  | true => rfl
  | false =>
    rw [Bool.eq_iff_iff, bne_iff_ne, bne_iff_ne]
    exact not_congr lowercase_eq_dot

/-- A folded pattern has the folded components. -/
theorem parts_fold : parts (fold caseSensitive text) = (parts text).map (fold caseSensitive) := by
  rw [parts, pieces_fold fun _ => halts_of_isSeparator, List.filter_map, parts]
  simp only [Function.comp_def, isEmpty_fold, fold_bne_dot]

end Pattern

end TreeArchive
