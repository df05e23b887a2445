import TreeArchive.Proofs.Bare
import TreeArchive.Proofs.Traversal

/-!
A walk goes by names, kinds and links. What is in the files decides nothing but the sizes of the
entries, so a walk may go on while a file grows.
-/
namespace TreeArchive

open FileSystem

/-- An item without the size of its file. -/
def unsized : Except Failure Entry → Except Failure Entry
  | .ok e => .ok { e with size := 0 }
  | .error f => .error f

namespace Rules

def Outcome.unsized : Outcome → Outcome
  | .item i => .item (TreeArchive.unsized i)
  | .directory p => .directory p
  | .nothing => .nothing

variable {r : Rules} {fs : FileSystem} {paths : List Path} {v : Visit} {p : Path}

theorem listing_bare : r.listing fs.bare p = r.listing fs p := by
  unfold listing
  rw [list_bare]

theorem openedAt_bare : openedAt fs.bare p = openedAt fs p := by
  unfold openedAt
  rw [find_bare]
  cases fs.find p true <;> rfl

theorem checkLoop_bare {here : Location} :
    checkLoop fs.bare p here paths = checkLoop fs p here paths := by
  induction paths with
  | nil => rfl
  | cons directory outer ih => rw [checkLoop, checkLoop, openedAt_bare, ih]

theorem look_bare : r.look fs.bare paths v = r.look fs paths v := by
  unfold look follow
  rw [find_bare]
  cases fs.find v.path true with
  | error e => rfl
  | ok found =>
    obtain ⟨l, node⟩ := found
    simp only [Except.map, Node.kind_bare, checkLoop_bare]

theorem leaf_bare : r.leaf fs.bare v = (r.leaf fs v).unsized := by
  unfold leaf
  rw [find_bare]
  cases fs.find v.path (v.followed || v.kind == .link) with
  | error e => rfl
  | ok found =>
    obtain ⟨l, node⟩ := found
    cases node with
    | file data =>
      -- the only place where a walk looks at a file, for its size
      simp only [Except.map, Node.bare, Outcome.unsized]
      cases RelativePath.fromRoot v.path r.settings.root <;> rfl
    | directory mode nodes => rfl
    | link target => rfl
    | pipe => rfl

theorem visit_bare : r.visit fs.bare paths v = (r.visit fs paths v).unsized := by
  unfold visit
  rw [look_bare]
  cases r.look fs paths v with
  | error f => rfl
  | ok v' =>
    simp only [leaf_bare]
    split
    · rfl
    · split <;> rfl

theorem begin_bare : r.begin fs.bare = (r.begin fs).unsized := by
  unfold begin
  simp only [find_bare, look_bare]
  cases fs.find r.settings.source false with
  | error e => rfl
  | ok found =>
    simp only [Except.map, Node.kind_bare]
    split
    · rfl
    · split
      · rfl
      · split
        · cases fs.find r.settings.source true with
          | error e => rfl
          | ok followed =>
            obtain ⟨l, node⟩ := followed
            cases node <;> rfl
        · rfl

end Rules

namespace Walk

def Step.unsized : Step → Step
  | .finished => .finished
  | .moved w => .moved w
  | .yielded i w => .yielded (TreeArchive.unsized i) w

theorem after_bare (fs : FileSystem) (w : Walk) (o : Rules.Outcome) :
    w.after fs.bare o.unsized = (w.after fs o).unsized := by
  cases o with
  | item i => rfl
  | nothing => rfl
  | directory p =>
    simp only [Rules.Outcome.unsized, after, push, Rules.listing_bare]
    rfl

theorem step_bare (fs : FileSystem) (w : Walk) : w.step fs.bare = (w.step fs).unsized := by
  obtain ⟨rules, fresh, stack⟩ := w
  cases fresh with
  | true =>
    have hafter := after_bare fs ⟨rules, false, stack⟩ (rules.begin fs)
    rwa [← Rules.begin_bare] at hafter
  | false =>
    match stack with
    | [] => rfl
    | ⟨directory, []⟩ :: outer => rfl
    | ⟨directory, .error (p, e) :: pending⟩ :: outer => rfl
    | ⟨directory, .ok v :: pending⟩ :: outer =>
      have hafter := after_bare fs ⟨rules, false, ⟨directory, pending⟩ :: outer⟩
        (rules.visit fs (directory :: outer.map Frame.directory) v)
      rwa [← Rules.visit_bare] at hafter

theorem items_bare (fs : FileSystem) (w : Walk) : w.items fs.bare = (w.items fs).map unsized := by
  induction hweight : w.weight fs using Nat.strongRecOn generalizing w with
  | ind weight ih =>
    subst hweight
    rw [items_step, items_step fs, step_bare]
    cases hstep : w.step fs with
    | finished => rfl
    | moved w' => exact ih _ (weight_step (by rw [hstep]; rfl)) w' rfl
    | yielded item w' =>
      exact congrArg (unsized item :: ·) (ih _ (weight_step (by rw [hstep]; rfl)) w' rfl)

/-- A walk goes the same way where only what files hold has changed. -/
theorem items_of_bare_eq {fs fs' : FileSystem} (h : fs.bare = fs'.bare) (w : Walk) :
    (w.items fs).map unsized = (w.items fs').map unsized := by
  rw [← items_bare, ← items_bare, h]

end Walk

end TreeArchive
