import Mathlib.Data.List.Basic
import TreeArchive.Walk

/-!
A walk that is pulled to its end gives what a recursive traversal gives: a visited node gives its
item, or everything below it in the order of its listing.
-/
namespace TreeArchive

namespace Rules

variable (r : Rules) (fs : FileSystem)

/-- The items of a node and of everything below it. -/
def traverse (opened : List Path) (v : Visit) : List (Except Failure Entry) :=
  match _h : r.visit fs opened v with
  | .item i => [i]
  | .nothing => []
  | .directory p =>
    (r.listing fs p).attach.flatMap fun
      | ⟨.error (p, e), _⟩ => [.error (r.failure ⟨some p, e⟩)]
      | ⟨.ok child, _⟩ => traverse (p :: opened) child
termination_by v.path.room
decreasing_by
  have hp := eq_of_visit _h
  subst hp
  exact room_lt_of_mem_listing (by assumption)

/-- The items of a listed node, or the one failure of a listing. -/
def traverseItem (opened : List Path) :
    Except (Path × IoError) Visit → List (Except Failure Entry)
  | .error (p, e) => [.error (r.failure ⟨some p, e⟩)]
  | .ok v => r.traverse fs opened v

/-- The items of what a node has come to. -/
def results (opened : List Path) : Outcome → List (Except Failure Entry)
  | .item i => [i]
  | .nothing => []
  | .directory p => (r.listing fs p).flatMap (r.traverseItem fs (p :: opened))

theorem traverse_eq (opened : List Path) (v : Visit) :
    r.traverse fs opened v = r.results fs opened (r.visit fs opened v) := by
  rw [traverse]
  split
  · rename_i h
    rw [h]
    rfl
  · rename_i h
    rw [h]
    rfl
  · rename_i p h
    -- membership in the listing is carried along for termination only
    have hitem (x : { x // x ∈ r.listing fs p }) : (match x with
        | ⟨.error (p, e), _⟩ => [.error (r.failure ⟨some p, e⟩)]
        | ⟨.ok child, _⟩ => r.traverse fs (p :: opened) child) =
          r.traverseItem fs (p :: opened) x.1 := by
      rcases x with ⟨⟨p, e⟩ | v, hx⟩ <;> rfl
    rw [h, results]
    simp only [hitem]
    rw [List.flatMap_subtype (g := r.traverseItem fs (p :: opened)) fun _ _ => rfl,
      List.unattach_attach]

/-- The items of what is still to be taken from the open directories. -/
def pendingItems : List Frame → List (Except Failure Entry)
  | [] => []
  | frame :: outer =>
    frame.pending.flatMap (r.traverseItem fs (frame.directory :: outer.map Frame.directory)) ++
      pendingItems outer

end Rules

namespace Walk

/-- All items that a walk has still to give, in their order. -/
def traversed (fs : FileSystem) (w : Walk) : List (Except Failure Entry) :=
  (if w.fresh then w.rules.results fs w.opened (w.rules.begin fs) else []) ++
    w.rules.pendingItems fs w.stack

theorem next_step (fs : FileSystem) (w : Walk) : w.next fs =
    match w.step fs with
    | .finished => none
    | .moved w' => w'.next fs
    | .yielded item w' => some (item, w') := by
  rw [next]
  cases w.step fs <;> rfl

theorem items_step (fs : FileSystem) (w : Walk) : w.items fs =
    match w.step fs with
    | .finished => []
    | .moved w' => w'.items fs
    | .yielded item w' => item :: w'.items fs := by
  rw [items, next_step]
  cases w.step fs with
  | finished => rfl
  | moved w' =>
    simp only
    rw [items]
  | yielded item w' => rfl

/-- The first item comes of the first node in the source, if that gives one. -/
theorem next_of_first {fs : FileSystem} {r : Rules} {v : Visit}
    {pending : List (Except (Path × IoError) Visit)} {i : Except Failure Entry}
    (hbegin : r.begin fs = .directory r.settings.source)
    (hlisting : r.listing fs r.settings.source = .ok v :: pending)
    (hvisit : r.visit fs [r.settings.source] v = .item i) :
    next fs ⟨r, true, []⟩ = some (i, ⟨r, false, [⟨r.settings.source, pending⟩]⟩) := by
  have hfirst : step ⟨r, true, []⟩ fs =
      .moved ⟨r, false, [⟨r.settings.source, .ok v :: pending⟩]⟩ := by
    simp [step, hbegin, after, push, hlisting]
  have hsecond : step ⟨r, false, [⟨r.settings.source, .ok v :: pending⟩]⟩ fs =
      .yielded i ⟨r, false, [⟨r.settings.source, pending⟩]⟩ := by
    simp [step, after, opened, hvisit]
  rw [next_step, hfirst]
  simp only
  rw [next_step, hsecond]

theorem items_of_next {fs : FileSystem} {w w' : Walk} {i : Except Failure Entry}
    (h : w.next fs = some (i, w')) : w.items fs = i :: w'.items fs := by
  rw [items]
  split
  · rename_i hnone
    rw [h] at hnone
    cases hnone
  · rename_i item rest hsome
    rw [h] at hsome
    cases hsome
    rfl

theorem items_of_next_eq_none {fs : FileSystem} {w : Walk} (h : w.next fs = none) :
    w.items fs = [] := by
  rw [items]
  split
  · rfl
  · rename_i item rest hsome
    rw [h] at hsome
    cases hsome

theorem mem_items_of_next {fs : FileSystem} {w w' : Walk} {i : Except Failure Entry}
    (h : w.next fs = some (i, w')) : i ∈ w.items fs := by
  rw [items_of_next h]
  exact List.mem_cons_self

/-- Going on from a node reads no more of the file system than the directory that is listed. -/
theorem after_congr {fs fs' : FileSystem} {w : Walk} {o : Rules.Outcome}
    (h : ∀ p, o = .directory p → w.rules.listing fs' p = w.rules.listing fs p) :
    w.after fs' o = w.after fs o := by
  cases o with
  | item i => rfl
  | nothing => rfl
  | directory p => simp only [after, push, h p rfl]

/-- What the traversal gives at one step of the walk. -/
theorem traversed_after (fs : FileSystem) (w : Walk) (o : Rules.Outcome)
    (hfresh : w.fresh = false) :
    w.rules.results fs w.opened o ++ w.traversed fs =
      match w.after fs o with
      | .finished => []
      | .moved w' => w'.traversed fs
      | .yielded item w' => item :: w'.traversed fs := by
  cases o with
  | item i => rfl
  | nothing => rfl
  | directory p => simp [after, push, traversed, Rules.results, Rules.pendingItems, opened, hfresh]

theorem traversed_step (fs : FileSystem) (w : Walk) : w.traversed fs =
    match w.step fs with
    | .finished => []
    | .moved w' => w'.traversed fs
    | .yielded item w' => item :: w'.traversed fs := by
  obtain ⟨rules, fresh, stack⟩ := w
  cases fresh with
  | true => exact traversed_after fs ⟨rules, false, stack⟩ (rules.begin fs) rfl
  | false =>
    match stack with
    | [] => rfl
    | ⟨directory, []⟩ :: outer => rfl
    | ⟨directory, .error (p, e) :: pending⟩ :: outer => rfl
    | ⟨directory, .ok v :: pending⟩ :: outer =>
      have hafter := traversed_after fs ⟨rules, false, ⟨directory, pending⟩ :: outer⟩
        (rules.visit fs (directory :: outer.map Frame.directory) v) rfl
      rw [opened, List.map_cons, ← Rules.traverse_eq] at hafter
      simp only [traversed, Rules.pendingItems, Rules.traverseItem, List.flatMap_cons,
        List.append_assoc] at hafter ⊢
      exact hafter

theorem items_eq_traversed (fs : FileSystem) (w : Walk) : w.items fs = w.traversed fs := by
  -- both sides go on alike at each step, and each step leaves a walk that weighs less
  induction hweight : w.weight fs using Nat.strongRecOn generalizing w with
  | ind weight ih =>
    subst hweight
    rw [items_step, traversed_step]
    cases hstep : w.step fs with
    | finished => rfl
    | moved w' => exact ih _ (weight_step (by rw [hstep]; rfl)) w' rfl
    | yielded item w' =>
      exact congrArg (item :: ·) (ih _ (weight_step (by rw [hstep]; rfl)) w' rfl)

end Walk

end TreeArchive
