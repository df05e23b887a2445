import Mathlib.Data.List.Forall2
import TreeArchive.Proofs.Folding
import TreeArchive.Proofs.RelativeForm

/-!
Which paths a pattern matches. It has a segment for each component of its text, and tries these on
the last components of a path, each folded by itself. What stands in front of them is of no account
unless the pattern starts with a separator, and then nothing may stand there.
-/
namespace TreeArchive

open Text

namespace RelativePath

end RelativePath

namespace Pattern

variable {p : Pattern} {r : RelativePath}

/-- The last components of a path, as many as there are segments. -/
def lastComponents (p : Pattern) (r : RelativePath) : List (List Char) :=
  r.components.drop (r.depth - p.segments.length)

/-- The pairs that are tried from the right are the segments with the last components. -/
theorem all_zip_reverse_iff {α β : Type} (f : α → β → Bool) {xs : List α} {ys : List β}
    (h : xs.length ≤ ys.length) :
    (xs.reverse.zip ys.reverse).all (fun (x, y) => f x y) = true ↔
      List.Forall₂ (fun x y => f x y = true) xs (ys.drop (ys.length - xs.length)) := by
  have htake : ys.reverse.take xs.length = (ys.drop (ys.length - xs.length)).reverse :=
    List.take_reverse
  have hlength : xs.length = (ys.drop (ys.length - xs.length)).length := by
    rw [List.length_drop]
    omega
  have hzip : xs.reverse.zip ys.reverse =
      xs.reverse.zip (ys.drop (ys.length - xs.length)).reverse := by
    rw [← htake, List.zip_eq_zip_take_min, List.length_reverse, List.length_reverse,
      Nat.min_eq_left h, ← List.length_reverse, List.take_length]
  rw [hzip, ← List.forall₂_reverse_iff, List.forall₂_iff_zip, List.length_reverse,
    List.length_reverse, List.all_eq_true]
  constructor
  · exact fun hall => ⟨hlength, fun hmem => hall _ hmem⟩
  · exact fun hall pair hmem => hall.2 hmem

theorem admits_iff : p.admits r = true ↔
    (if p.anchored then p.segments.length = r.depth else p.segments.length ≤ r.depth) ∧
      List.Forall₂ (fun segment component =>
        Glob.matchesAll segment (fold p.caseSensitive component) = true)
        p.segments (p.lastComponents r) := by
  have hpieces : pieces (· == '/') (fold p.caseSensitive r.chars) =
      r.components.map (fold p.caseSensitive) := by
    rw [pieces_fold, r.pieces_chars]
    exact fun c hc => halts_of_isSeparator (by simp [RelativePath.isSeparator, hc])
  have hlast : (r.components.map (fold p.caseSensitive)).drop
      ((r.components.map (fold p.caseSensitive)).length - p.segments.length) =
        (p.lastComponents r).map (fold p.caseSensitive) := by
    rw [List.length_map, ← List.map_drop]
    rfl
  have hall (h : p.segments.length ≤ r.depth) := all_zip_reverse_iff Glob.matchesAll
    (Nat.le_trans h (Nat.le_of_eq (List.length_map (fold p.caseSensitive)).symm))
  rw [hlast, List.forall₂_map_right_iff] at hall
  simp only [admits, hpieces, Bool.and_eq_true]
  cases p.anchored with
  | true =>
    simp only [if_true, beq_iff_eq, List.length_map]
    constructor
    · rintro ⟨hlength, htaken⟩
      exact ⟨hlength.symm, (hall (Nat.le_of_eq hlength.symm)).1 htaken⟩
    · rintro ⟨hlength, htaken⟩
      exact ⟨hlength.symm, (hall (Nat.le_of_eq hlength)).2 htaken⟩
  | false =>
    simp only [Bool.false_eq_true, if_false, decide_eq_true_eq, List.length_map]
    constructor
    · rintro ⟨hlength, htaken⟩
      exact ⟨hlength, (hall hlength).1 htaken⟩
    · rintro ⟨hlength, htaken⟩
      exact ⟨hlength, (hall hlength).2 htaken⟩

theorem compile_cases (text : String) (caseSensitive : Bool) :
    (parts text.toList = [] ∧
      ∃ fault, compile text caseSensitive = .error (.invalidPattern text fault)) ∨
    (parts text.toList ≠ [] ∧ compile text caseSensitive =
      .ok ⟨text, text.toList.head?.any RelativePath.isSeparator, caseSensitive,
        (parts (fold caseSensitive text.toList)).map Glob.compile⟩) := by
  unfold compile
  by_cases hempty : text.toList = []
  · exact .inl ⟨by rw [hempty]; rfl, .emptyText, by simp [hempty]⟩
  · by_cases hparts : parts text.toList = []
    · exact .inl ⟨hparts, .noComponents, by simp [hempty, parts_fold, hparts]⟩
    · exact .inr ⟨hparts, by simp [hempty, parts_fold, hparts]⟩

end Pattern

end TreeArchive
