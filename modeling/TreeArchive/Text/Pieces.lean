/-! Cutting a list at separators, and joining pieces with one separator between them. -/
namespace TreeArchive.Text

universe u
variable {α : Type u}

/-- The pieces between separators, empty ones included; there is always at least one. -/
def pieces (isSep : α → Bool) : List α → List (List α)
  | [] => [[]]
  | a :: rest =>
    if isSep a then [] :: pieces isSep rest
    else
      match pieces isSep rest with
      | [] => [[a]]
      | piece :: others => (a :: piece) :: others

def join (sep : α) : List (List α) → List α
  | [] => []
  | [piece] => piece
  | piece :: others => piece ++ sep :: join sep others

theorem pieces_ne_nil (isSep : α → Bool) (s : List α) : pieces isSep s ≠ [] := by
  cases s with
  | nil => simp [pieces]
  | cons a rest =>
    simp only [pieces]
    split
    · simp
    · split <;> simp

end TreeArchive.Text
