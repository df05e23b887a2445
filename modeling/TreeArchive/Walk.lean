import TreeArchive.Walk.Weight

/-! Pulling items from a walk, one at a time or all of them. -/
namespace TreeArchive.Walk

/-- The next item and the walk behind it; nothing, where the walk has ended. -/
def next (fs : FileSystem) (w : Walk) : Option (Except Failure Entry × Walk) :=
  match _h : w.step fs with
  | .finished => none
  | .moved w' => next fs w'
  | .yielded item w' => some (item, w')
termination_by w.weight fs
decreasing_by exact weight_step (by rw [_h]; rfl)

theorem weight_next {w w' : Walk} {fs : FileSystem} {item : Except Failure Entry}
    (h : w.next fs = some (item, w')) : w'.weight fs < w.weight fs := by
  fun_induction next fs w with
  | case1 => cases h
  | case2 w _ hstep ih => exact Nat.lt_trans (ih h) (weight_step (by rw [hstep]; rfl))
  | case3 w _ _ hstep =>
    cases h
    exact weight_step (by rw [hstep]; rfl)

/-- All items, also those behind a failure. -/
def items (fs : FileSystem) (w : Walk) : List (Except Failure Entry) :=
  match _h : w.next fs with
  | none => []
  | some (item, w') => item :: items fs w'
termination_by w.weight fs
decreasing_by exact weight_next _h

/-- The entries, or the first failure. -/
def collect (fs : FileSystem) (w : Walk) : Except Failure (List Entry) :=
  match _h : w.next fs with
  | none => .ok []
  | some (.error failure, _) => .error failure
  | some (.ok entry, w') => (entry :: ·) <$> collect fs w'
termination_by w.weight fs
decreasing_by exact weight_next _h

end TreeArchive.Walk
