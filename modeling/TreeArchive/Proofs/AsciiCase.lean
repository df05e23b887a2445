import TreeArchive.Proofs.IgnoringCase

/-!
Patterns that ignore case make no difference between the cases of an ASCII letter, wherever it
stands. Either case of it is a cased letter that case rules do not skip, so its case does not show in
the lower case of its neighbours, and the folded texts are the same.
-/
namespace TreeArchive

open Text

namespace Text

variable {before before' s t : List Char} {c d : Char}

/-- The same character, or the same ASCII letter in either case. -/
def SameLetter (c d : Char) : Prop :=
  c = d ∨ c.isAlpha = true ∧ d.isAlpha = true ∧ c.toLower = d.toLower

/-- The texts differ at most in the case of ASCII letters. -/
def SameLetters (s t : List Char) : Prop :=
  List.Forall₂ SameLetter s t

theorem toNat_lt_of_isAlpha (h : c.isAlpha = true) : c.toNat < 0x80 := by
  simp only [Char.isAlpha, Char.isUpper, Char.isLower, Bool.or_eq_true, Bool.and_eq_true,
    decide_eq_true_eq, UInt32.le_iff_toNat_le, ge_iff_le] at h
  have hval : c.toNat = c.val.toNat := rfl
  have hZ : 'Z'.val.toNat = 90 := rfl
  have hz : 'z'.val.toNat = 122 := rfl
  omega

theorem cased_of_isAlpha (h : c.isAlpha = true) : isSkipped c = false ∧ isCased c = true := by
  have hall : ∀ n < 0x80, (Char.ofNat n).isAlpha = true →
      isSkipped (Char.ofNat n) = false ∧ isCased (Char.ofNat n) = true := by decide +kernel
  have hc := hall c.toNat (toNat_lt_of_isAlpha h)
  rw [Char.ofNat_toNat] at hc
  exact hc h

/-- An ASCII letter has one lower case, whatever stands around it. -/
theorem lowerChar_of_isAlpha (h : c.isAlpha = true) (before after : List Char) :
    lowerChar before c after = [c.toLower] := by
  have hascii := toNat_lt_of_isAlpha h
  have hsigma : c ≠ capitalSigma := by
    rintro rfl
    exact absurd hascii (by decide)
  have hdotted : c ≠ '\u0130' := by
    rintro rfl
    exact absurd hascii (by decide)
  rw [lowerChar, if_neg hsigma, if_neg hdotted, if_pos hascii]

theorem SameLetters.facesCased_eq (h : SameLetters s t) : facesCased s = facesCased t := by
  induction h with
  | nil => rfl
  | cons hletter hrest ih =>
    rw [facesCased_cons, facesCased_cons, ih]
    rcases hletter with rfl | ⟨hc, hd, -⟩
    · rfl
    · obtain ⟨hskipped, hcased⟩ := cased_of_isAlpha hc
      obtain ⟨hskipped', hcased'⟩ := cased_of_isAlpha hd
      rw [hskipped, hcased, hskipped', hcased']

/-- The lower case of a text hangs neither on the case of its ASCII letters nor on that of the
letters before it. -/
theorem SameLetters.lowerFrom_eq (h : SameLetters s t) (hbefore : SameLetters before before') :
    lowerFrom before s = lowerFrom before' t := by
  induction h generalizing before before' with
  | nil => rfl
  | @cons c d s t hletter hrest ih =>
    have hchar : lowerChar before c s = lowerChar before' d t := by
      rcases hletter with rfl | ⟨hc, hd, hlower⟩
      · exact lowerChar_congr hbefore.facesCased_eq (SameLetters.facesCased_eq hrest) c
      · rw [lowerChar_of_isAlpha hc, lowerChar_of_isAlpha hd, hlower]
    rw [lowerFrom, lowerFrom, hchar, ih (.cons hletter hbefore)]

theorem SameLetters.lowercase_eq (h : SameLetters s t) : lowercase s = lowercase t :=
  h.lowerFrom_eq .nil

theorem SameLetters.isEmpty_eq (h : SameLetters s t) : s.isEmpty = t.isEmpty := by
  cases h <;> rfl

theorem SameLetter.isSeparator_eq (h : SameLetter c d) :
    RelativePath.isSeparator c = RelativePath.isSeparator d := by
  have hletter {c : Char} (hc : c.isAlpha = true) : RelativePath.isSeparator c = false := by
    rw [Bool.eq_false_iff]
    intro hsep
    have hcased := (halts_of_isSeparator hsep).not_cased
    rw [(cased_of_isAlpha hc).2] at hcased
    cases hcased
  rcases h with rfl | ⟨hc, hd, -⟩
  · rfl
  · rw [hletter hc, hletter hd]

theorem SameLetters.head?_any_eq (h : SameLetters s t) :
    s.head?.any RelativePath.isSeparator = t.head?.any RelativePath.isSeparator := by
  cases h with
  | nil => rfl
  | cons hletter hrest => exact hletter.isSeparator_eq

end Text

namespace Pattern

variable {text text' : String}

/-- Two texts that differ in the case of ASCII letters cannot be compiled for the same reason, or
make patterns that differ in their sources only. -/
theorem compile_of_sameLetters (h : SameLetters text.toList text'.toList) :
    (∃ fault, compile text false = .error (.invalidPattern text fault) ∧
      compile text' false = .error (.invalidPattern text' fault)) ∨
    ∃ p, compile text false = .ok p ∧ compile text' false = .ok { p with source := text' } := by
  have hfold : fold false text.toList = fold false text'.toList := h.lowercase_eq
  simp only [compile, h.isEmpty_eq, h.head?_any_eq, hfold]
  by_cases hempty : text'.toList.isEmpty = true
  · exact .inl ⟨.emptyText, if_pos hempty, if_pos hempty⟩
  · rw [if_neg hempty, if_neg hempty]
    by_cases hnone : ((parts (fold false text'.toList)).map Glob.compile).isEmpty = true
    · exact .inl ⟨.noComponents, if_pos hnone, if_pos hnone⟩
    · exact .inr ⟨_, if_neg hnone, if_neg hnone⟩

/-- A pattern that ignores case does not depend on the case of the ASCII letters in its text: with
other cases it cannot be compiled for the same reason, or it has the same tokens. Nor does its match
depend on the case of those in a path. -/
theorem ascii_case_is_ignored (h : SameLetters text.toList text'.toList) :
    ((∃ p, compile text false = .ok p) ↔ ∃ p, compile text' false = .ok p) ∧
    (∀ fault, compile text false = .error (.invalidPattern text fault) ↔
      compile text' false = .error (.invalidPattern text' fault)) ∧
    ∀ p p', compile text false = .ok p → compile text' false = .ok p' →
      p'.segments = p.segments ∧ p'.anchored = p.anchored ∧
      ∀ r r' : RelativePath, SameLetters r.chars r'.chars →
        (p.admits r = true ↔ p'.admits r' = true) := by
  rcases compile_of_sameLetters h with ⟨fault, hfault, hfault'⟩ | ⟨p, hp, hp'⟩
  · simp [hfault, hfault']
  · simp only [hp, hp', Except.ok.injEq, exists_eq', reduceCtorEq, implies_true, true_and]
    rintro _ _ rfl rfl
    refine ⟨rfl, rfl, ?_⟩
    intro r r' hr
    have hfold : fold p.caseSensitive r.chars = fold p.caseSensitive r'.chars := by
      rw [caseSensitive_of_compile hp]
      exact hr.lowercase_eq
    rw [admits, admits, hfold]

def towardLetterPath : RelativePath where
  components := [['B', 'i'], ['K', 'a', 'Σ']]
  components_ne_nil := by simp
  ordinary := by decide

def awayLetterPath : RelativePath where
  components := [['b', 'I'], ['k', 'A', 'Σ']]
  components_ne_nil := by simp
  ordinary := by decide

/-- The letters are ends of a range and stand before a sigma, which is a final one behind either. -/
theorem ascii_case_is_ignored_before_sigma : ∃ p p', compile "[A-k]AΣ*" false = .ok p ∧
    compile "[a-K]aΣ*" false = .ok p' ∧ p.admits towardLetterPath = true ∧
      p'.admits awayLetterPath = true := by
  have hfold : fold false "[A-k]AΣ*".toList = "[a-k]aς*".toList := by decide +kernel
  have hpath : fold false towardLetterPath.chars = "bi/kaς".toList := by decide +kernel
  have hsegments : (parts "[a-k]aς*".toList).map Glob.compile =
      [[.charSet false [.range 'a' 'k'], .literal 'a', .literal 'ς', .anyRun]] := by cbv
  have hparts : parts "[A-k]AΣ*".toList = ["[A-k]AΣ*".toList] := by cbv
  have hparts' : parts "[a-K]aΣ*".toList = ["[a-K]aΣ*".toList] := by cbv
  have hp : compile "[A-k]AΣ*" false = .ok ⟨"[A-k]AΣ*", false, false,
      [[.charSet false [.range 'a' 'k'], .literal 'a', .literal 'ς', .anyRun]]⟩ := by
    rw [compile_eq_ok, hfold, hsegments, hparts]
    exact ⟨by simp, rfl⟩
  have hadmits : (Pattern.mk "[A-k]AΣ*" false false
      [[.charSet false [.range 'a' 'k'], .literal 'a', .literal 'ς', .anyRun]]).admits
        towardLetterPath = true := by
    rw [admits, hpath]
    cbv
  obtain ⟨p', hp'⟩ : ∃ p', compile "[a-K]aΣ*" false = .ok p' :=
    ⟨_, compile_eq_ok.2 ⟨by rw [hparts']; simp, rfl⟩⟩
  have hletters : SameLetters "[A-k]AΣ*".toList "[a-K]aΣ*".toList := by
    simp [SameLetters, SameLetter]
  have hpaths : SameLetters towardLetterPath.chars awayLetterPath.chars := by
    have htoward : towardLetterPath.chars = "Bi/KaΣ".toList := by decide +kernel
    have haway : awayLetterPath.chars = "bI/kAΣ".toList := by decide +kernel
    rw [htoward, haway]
    simp [SameLetters, SameLetter]
  obtain ⟨-, -, hsame⟩ := ascii_case_is_ignored hletters
  obtain ⟨-, -, hmatch⟩ := hsame _ _ hp hp'
  exact ⟨_, _, hp, hp', hadmits, (hmatch _ _ hpaths).1 hadmits⟩

end Pattern

end TreeArchive
