import TreeArchive.Proofs.Reached

/-!
What a walk may yield where the file system changes between its steps: whatever happens, the paths
it still has to visit are below its source.
-/
namespace TreeArchive

open FileSystem

namespace Rules

/-- A file that is there, under legal names below the source, when it is visited. -/
structure Sighted (r : Rules) (fs : FileSystem) (names : List Name) (data : FileData) : Prop where
  ne_nil : names ≠ []
  legal : ∀ n ∈ names, isLegalName n = true
  kept : r.keeps (r.settings.source.below names) = true
  file : ∃ l, fs.find (r.settings.source.below names) true = .ok (l, .file data)

end Rules

namespace Walk

/-- Nothing is to be visited but paths through legal names below the source. -/
def BelowSource (w : Walk) : Prop :=
  ∀ frame ∈ w.stack, ∀ v, .ok v ∈ frame.pending → ∃ names, names ≠ [] ∧
    (∀ n ∈ names, isLegalName n = true) ∧ v.path = w.rules.settings.source.below names

variable {w w' : Walk} {fs : FileSystem} {i : Except Failure Entry}

theorem ofSettings_eq_ok {s : Settings} : Walk.ofSettings s = .ok w ↔
    ∃ x, s.exclusions = .ok x ∧ w = ⟨⟨s, x, []⟩, true, []⟩ := by
  rw [Walk.ofSettings, bind_eq_ok]
  apply exists_congr
  intro x
  rw [Except.ok.injEq, eq_comm (a := w)]

theorem belowSource_of_fresh (r : Rules) : BelowSource ⟨r, true, []⟩ := by
  intro frame hframe
  cases hframe

theorem belowSource_push {names : List Name} (hw : w.BelowSource)
    (hnames : ∀ n ∈ names, isLegalName n = true) (fs : FileSystem) :
    (w.push fs (w.rules.settings.source.below names)).BelowSource := by
  intro frame hframe v hv
  rcases List.mem_cons.1 hframe with rfl | hframe
  · -- what is new to be visited stands in the listing, one name further
    rcases Rules.mem_listing.1 hv with ⟨e, -, heq⟩ | ⟨entries, name, kind, hlist, hmem, heq⟩
    · cases heq
    · cases heq
      refine ⟨names ++ [name], by simp, ?_, ?_⟩
      · exact List.forall_mem_append.2
          ⟨hnames, List.forall_mem_singleton.2 (legal_of_mem_list hlist hmem)⟩
      · exact (Path.below_append w.rules.settings.source names [name]).symm
  · exact hw frame hframe v hv

/-- Going on with a node below the source leaves nothing else to be visited. -/
theorem belowSource_after {o : Rules.Outcome} (hw : w.BelowSource)
    (ho : ∀ p, o = .directory p → ∃ names, (∀ n ∈ names, isLegalName n = true) ∧
      p = w.rules.settings.source.below names)
    (h : (w.after fs o).walk? = some w') : w'.BelowSource ∧ w'.rules = w.rules := by
  cases o with
  | item i =>
    cases h
    exact ⟨hw, rfl⟩
  | nothing =>
    cases h
    exact ⟨hw, rfl⟩
  | directory p =>
    obtain ⟨names, hnames, rfl⟩ := ho p rfl
    cases h
    exact ⟨belowSource_push hw hnames fs, rfl⟩

theorem belowSource_tail {r : Rules} {fresh : Bool} {p : Path} {stack : List Frame}
    {item : Except (Path × IoError) Visit} {pending : List (Except (Path × IoError) Visit)}
    (hw : BelowSource ⟨r, fresh, ⟨p, item :: pending⟩ :: stack⟩) :
    BelowSource ⟨r, fresh, ⟨p, pending⟩ :: stack⟩ := by
  intro frame hframe v hv
  rcases List.mem_cons.1 hframe with rfl | hframe
  · exact hw _ List.mem_cons_self v (List.mem_cons_of_mem _ hv)
  · exact hw frame (List.mem_cons_of_mem _ hframe) v hv

/-- One step, on whatever file system: what is left to be visited stays below the source. -/
theorem belowSource_step (hw : w.BelowSource) (h : (w.step fs).walk? = some w') :
    w'.BelowSource ∧ w'.rules = w.rules := by
  obtain ⟨rules, fresh, stack⟩ := w
  cases fresh with
  | true =>
    have hbegin (p : Path) (hp : rules.begin fs = .directory p) :
        ∃ names, (∀ n ∈ names, isLegalName n = true) ∧ p = rules.settings.source.below names :=
      ⟨[], List.forall_mem_nil _, Rules.eq_of_begin hp⟩
    exact belowSource_after (w := ⟨rules, false, stack⟩) hw hbegin h
  | false =>
    match stack, hw, h with
    | [], hw, h => cases h
    | ⟨directory, []⟩ :: outer, hw, h =>
      cases h
      exact ⟨fun frame hframe => hw frame (List.mem_cons_of_mem _ hframe), rfl⟩
    | ⟨directory, .error (p, e) :: pending⟩ :: outer, hw, h =>
      cases h
      exact ⟨belowSource_tail hw, rfl⟩
    | ⟨directory, .ok v :: pending⟩ :: outer, hw, h =>
      obtain ⟨names, -, hnames, hpath⟩ := hw _ List.mem_cons_self v List.mem_cons_self
      apply belowSource_after (w := ⟨rules, false, ⟨directory, pending⟩ :: outer⟩)
        (belowSource_tail hw) _ h
      intro p hp
      rw [Rules.eq_of_visit hp]
      exact ⟨names, hnames, hpath⟩

/-- What one step yields is a fault or the item of a file below the source. -/
theorem sighted_of_step (hw : w.BelowSource) (h : w.step fs = .yielded i w') :
    Rules.IsFault i ∨
      ∃ names data, w.rules.Sighted fs names data ∧ i = w.rules.itemOf names data := by
  have hafter {w : Walk} {o : Rules.Outcome} (h : w.after fs o = .yielded i w') : o = .item i := by
    cases o with
    | item j =>
      cases h
      rfl
    | nothing => cases h
    | directory p => cases h
  obtain ⟨rules, fresh, stack⟩ := w
  cases fresh with
  | true => exact .inl (Rules.isFault_of_begin (hafter h))
  | false =>
    match stack, hw, h with
    | [], hw, h => cases h
    | ⟨directory, []⟩ :: outer, hw, h => cases h
    | ⟨directory, .error (p, e) :: pending⟩ :: outer, hw, h =>
      cases h
      exact .inl ⟨_, _, rfl⟩
    | ⟨directory, .ok v :: pending⟩ :: outer, hw, h =>
      obtain ⟨names, hne, hnames, hpath⟩ := hw _ List.mem_cons_self v List.mem_cons_self
      refine (Rules.file_of_visit (hafter h)).imp_right ?_
      rintro ⟨hkept, l, data, hfind, hitem⟩
      rw [hpath] at hkept hfind hitem
      exact ⟨names, data, ⟨hne, hnames, hkept, l, hfind⟩, hitem⟩

/-- A pulled item is a fault or that of a file that is there at that moment; the walk behind it has
nothing to visit but paths below the source. -/
theorem sighted_of_next (hw : w.BelowSource) (h : w.next fs = some (i, w')) :
    w'.BelowSource ∧ w'.rules = w.rules ∧ (Rules.IsFault i ∨
      ∃ names data, w.rules.Sighted fs names data ∧ i = w.rules.itemOf names data) := by
  -- the steps to the next item keep what is to be visited below the source
  fun_induction next fs w with
  | case1 => cases h
  | case2 w next hstep ih =>
    obtain ⟨hnext, hrules⟩ := belowSource_step hw (by rw [hstep]; rfl)
    have := ih hnext h
    rwa [hrules] at this
  | case3 w item next hstep =>
    cases h
    obtain ⟨hnext, hrules⟩ := belowSource_step hw (by rw [hstep]; rfl)
    exact ⟨hnext, hrules, sighted_of_step hw hstep⟩

end Walk

end TreeArchive
