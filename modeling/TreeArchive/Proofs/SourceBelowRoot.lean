import TreeArchive.FileSystem.Literal
import TreeArchive.Proofs.Exactness
import TreeArchive.Proofs.Pulled
import TreeArchive.Proofs.Run

/-!
What validation says about the paths of a walk. The source begins with the components of the root;
whether paths below the source have a relative form depends on the components behind these.
-/
namespace TreeArchive

open FileSystem

/-- The failures that a path has with respect to the packaging root. -/
def Failure.IsRelative (f : Failure) : Prop :=
  (∃ p root, f = .outsideRoot p root) ∨ ∃ text fault, f = .invalidRelativePath text fault

namespace Settings

variable {s : Settings} {fs : FileSystem} {f : Failure}

/-- What stands behind the root in the source. -/
def remainder (s : Settings) : List Path.Component :=
  s.source.components.drop s.root.components.length

theorem checkSource_eq_ok : s.checkSource fs = .ok () ↔
    ∃ l mode nodes, fs.find s.source true = .ok (l, .directory mode nodes) := by
  unfold checkSource
  cases hfind : fs.find s.source true with
  | error e =>
    simp only [reduceCtorEq, exists_const, iff_false]
    split <;> simp
  | ok found =>
    obtain ⟨l, node⟩ := found
    cases node <;> simp

/-- What settings are like that pass every check. -/
theorem validate_eq_ok : s.validate fs = .ok () ↔ isLevel s.level = true ∧
    (∃ x, s.exclusions = .ok x) ∧ s.source.startsWith s.root = true ∧
    (∃ l mode nodes, fs.find s.source true = .ok (l, .directory mode nodes)) ∧
    s.outputIsDirectory fs = false := by
  have hguard {c : Bool} {f : Failure} {rest : Except Failure Unit} :
      (if (!c) = true then (.error f : Except Failure Unit) >>= fun _ => rest else rest) = .ok () ↔
        c = true ∧ rest = .ok () := by
    cases c with
    | false => simp [bind_eq_ok]
    | true => simp
  have hlast {c : Bool} {f : Failure} :
      (if c = true then .error f else pure ()) = (.ok () : Except Failure Unit) ↔ c = false := by
    cases c with
    | false => simp [pure, Except.pure]
    | true => simp
  unfold validate
  simp only [hguard]
  constructor
  · intro h
    obtain ⟨hlevel, h⟩ := h
    obtain ⟨x, hx, h⟩ := bind_eq_ok.1 h
    obtain ⟨hstarts, h⟩ := hguard.1 h
    obtain ⟨u, hsource, houtput⟩ := bind_eq_ok.1 h
    exact ⟨hlevel, ⟨x, hx⟩, hstarts, checkSource_eq_ok.1 hsource, hlast.1 houtput⟩
  · intro h
    obtain ⟨hlevel, ⟨x, hx⟩, hstarts, hsource, houtput⟩ := h
    refine ⟨hlevel, bind_eq_ok.2 ⟨x, hx, hguard.2 ⟨hstarts, bind_eq_ok.2 ⟨(), ?_, ?_⟩⟩⟩⟩
    · exact checkSource_eq_ok.2 hsource
    · exact hlast.2 houtput

theorem components_of_validate (h : s.validate fs = .ok ()) :
    s.source.components = s.root.components ++ s.remainder := by
  obtain ⟨-, -, hstarts, -⟩ := validate_eq_ok.1 h
  obtain ⟨rest, hrest⟩ := List.isPrefixOf_iff_prefix.1 hstarts
  rw [remainder, ← hrest, List.drop_left]

end Settings

namespace Rules

variable {r : Rules} {names : List Name} {data : FileData}

/-- Below a validated source, an item has a failure of its path exactly where the source climbs. -/
theorem itemOf_cases
    (hsource : r.settings.source.components = r.settings.root.components ++ r.settings.remainder)
    (hne : names ≠ []) (hlegal : ∀ n ∈ names, isLegalName n = true) (data : FileData) :
    (climbs r.settings.remainder = true ∧ ∃ text fault,
      r.itemOf names data = .error (.invalidRelativePath text fault)) ∨
    (climbs r.settings.remainder = false ∧ ∀ f, f.IsRelative → r.itemOf names data ≠ .error f) := by
  have hcomponents : (r.settings.source.below names).components =
      r.settings.root.components ++ (r.settings.remainder ++ names.map .normal) := by
    rw [Path.components_below fun n hn => Path.ordinary_of_isLegalName (hlegal n hn), hsource,
      List.append_assoc]
  have hnamed : (r.settings.remainder ++ names.map Path.Component.normal).filterMap
      Path.Component.name? ≠ [] := by
    obtain ⟨name, rest, rfl⟩ := List.exists_cons_of_ne_nil hne
    rw [List.filterMap_append]
    exact List.append_ne_nil_of_right_ne_nil _ (by simp [Path.Component.name?])
  simp only [itemOf]
  rcases RelativePath.fromRoot_below hcomponents hnamed with
    ⟨hclimbs, text, fault, herror⟩ | ⟨hclimbs, ⟨relative, -, hok⟩ | ⟨-, herror⟩⟩
  · rw [climbs_append_normal] at hclimbs
    exact .inl ⟨hclimbs, text, fault, by rw [herror]; rfl⟩
  · rw [climbs_append_normal] at hclimbs
    refine .inr ⟨hclimbs, ?_⟩
    intro f hf
    rw [hok]
    simp [Except.map]
  · rw [climbs_append_normal] at hclimbs
    refine .inr ⟨hclimbs, ?_⟩
    rw [herror]
    rintro _ (⟨p, root, rfl⟩ | ⟨text, fault, rfl⟩) <;> simp [Except.map]

theorem not_isFault_of_isRelative {f : Failure} (h : f.IsRelative) : ¬IsFault (.error f) := by
  rintro ⟨p, e, heq⟩
  cases heq
  rcases h with ⟨_, _, heq⟩ | ⟨_, _, heq⟩ <;> cases heq

end Rules

namespace Pack

variable {s : Settings} {r : Rules} {f : Failure}

/-- What ends a run is a fault of the walk, a file that has no relative path, or what adding a file
fails with. -/
theorem addAll_error {limit : Nat} {w : Walk} {run : Run} {report : Report} (hw : w.BelowSource)
    (h : (addAll s walking limit w run report).2.2 = .error f) :
    Rules.IsFault (.error f) ∨
    (∃ fs names data, w.rules.Sighted fs names data ∧ .error f = w.rules.itemOf names data) ∨
    (∃ p e, f = .unreadable p e) ∨ (∃ e, f = .archive e) ∨ ∃ e, f = .io e := by
  -- the file system may be any other one at each pull, but the walk stays below the source
  induction limit generalizing w run report with
  | zero => cases h
  | succ limit ih =>
    rw [addAll] at h
    cases hnext : w.next run.fs with
    | none => simp [walking, hnext] at h
    | some pulled =>
      obtain ⟨item, w'⟩ := pulled
      obtain ⟨hw', hrules', hitem⟩ := Walk.sighted_of_next hw hnext
      cases item with
      | error g =>
        simp only [walking, hnext, Except.error.injEq] at h
        subst h
        exact hitem.imp_right fun hitem => .inl ⟨_, hitem⟩
      | ok entry =>
        simp only [walking, hnext] at h
        split at h
        · rename_i g hg
          cases h
          exact .inr (.inr (addFile_error hg))
        · have hrest := ih hw' h
          rwa [hrules'] at hrest

/-- A run whose source does not climb never fails because of where a path lies, whatever the files
that it reads and its own output become on the way. -/
theorem addAll_result_ne (hsource : r.settings.source.components =
      r.settings.root.components ++ r.settings.remainder)
    (hclimbs : climbs r.settings.remainder = false) (hf : f.IsRelative) {limit : Nat} {w : Walk}
    {run : Run} {report : Report} (hw : w.BelowSource) (hrules : w.rules = r) :
    (addAll s walking limit w run report).2.2 ≠ .error f := by
  intro h
  rcases addAll_error hw h with hfault | ⟨fs, names, data, hsighted, hitem⟩ | hadd
  · exact Rules.not_isFault_of_isRelative hf hfault
  · rw [hrules] at hsighted hitem
    rcases Rules.itemOf_cases hsource hsighted.ne_nil hsighted.legal data with
      ⟨hclimbs', -⟩ | ⟨-, hne⟩
    · rw [hclimbs] at hclimbs'
      cases hclimbs'
    · exact hne _ hf hitem.symm
  · rcases hadd with ⟨_, _, rfl⟩ | ⟨_, rfl⟩ | ⟨_, rfl⟩ <;>
      rcases hf with ⟨_, _, heq⟩ | ⟨_, _, heq⟩ <;> cases heq

/-- The output is created before the first item is pulled. -/
theorem packTree_created {w : Walk} {fs fs₀ fs₁ : FileSystem} {replaced : Bool}
    {handle : FileSystem.Handle} (hvalid : s.validate fs = .ok ())
    (hwalk : Walk.ofSettings s = .ok w) (hreset : resetOutput fs s.output = .ok (fs₀, replaced))
    (hcreate : createOutput fs₀ s.output = .ok (fs₁, handle)) :
    ((packTree s fs).result = .error f ↔
      (addAll s walking ((w.skip s.output).weight fs₁ + 1) (w.skip s.output)
        ⟨fs₁, handle, .ofLevel s.level⟩ (Report.ofOutput s.output replaced)).2.2 = .error f) := by
  rw [packTree_eq hvalid hwalk]
  exact (packFrom_created s walking (w.skip s.output) hreset hcreate).2.2 f

theorem resetOutput_ne {fs : FileSystem} {output : Path} (hf : f.IsRelative) :
    resetOutput fs output ≠ .error f := by
  unfold resetOutput
  rcases hf with ⟨_, _, rfl⟩ | ⟨_, _, rfl⟩ <;> repeat' split
  all_goals simp

theorem createOutput_ne {fs : FileSystem} {output : Path} (hf : f.IsRelative) :
    createOutput fs output ≠ .error f := by
  unfold createOutput
  rcases hf with ⟨_, _, rfl⟩ | ⟨_, _, rfl⟩ <;> repeat' split
  all_goals simp

/-- The run creates its output, and the first item that it pulls then is no fault. -/
def Begins (s : Settings) (w : Walk) (fs : FileSystem) : Prop :=
  ∃ fs₀ replaced fs₁ handle item w', resetOutput fs s.output = .ok (fs₀, replaced) ∧
    createOutput fs₀ s.output = .ok (fs₁, handle) ∧
    (w.skip s.output).next fs₁ = some (item, w') ∧ ¬Rules.IsFault item

variable {w : Walk} {fs : FileSystem}

/-- Where the source climbs, the first file that a run comes to ends it. -/
theorem packTree_of_climbs (hvalid : s.validate fs = .ok ()) (hwalk : Walk.ofSettings s = .ok w)
    (hclimbs : climbs s.remainder = true) (hbegins : Begins s w fs) :
    ∃ text fault, (packTree s fs).result = .error (.invalidRelativePath text fault) := by
  obtain ⟨fs₀, replaced, fs₁, handle, item, w', hreset, hcreate, hnext, hfault⟩ := hbegins
  obtain ⟨x, -, rfl⟩ := Walk.ofSettings_eq_ok.1 hwalk
  obtain ⟨-, -, hitem⟩ := Walk.sighted_of_next (Walk.belowSource_of_fresh _) hnext
  obtain ⟨names, data, hsighted, rfl⟩ := hitem.resolve_left hfault
  rcases Rules.itemOf_cases (r := ⟨s, x, [s.output.normalize]⟩)
    (Settings.components_of_validate hvalid) hsighted.ne_nil hsighted.legal data with
    ⟨-, text, fault, herror⟩ | ⟨hclimbs', -⟩
  · refine ⟨text, fault, (packTree_created hvalid hwalk hreset hcreate).2 ?_⟩
    have hpull := hnext.trans (congrArg (fun item => some (item, w')) herror)
    rw [addAll]
    simp only [walking, hpull]
  · exact absurd (hclimbs.symm.trans hclimbs') (by simp)

/-- A run that fails because of where a path lies has pulled an item that is no fault. -/
theorem begins_of_packTree (hvalid : s.validate fs = .ok ()) (hwalk : Walk.ofSettings s = .ok w)
    (hf : f.IsRelative) (h : (packTree s fs).result = .error f) :
    climbs s.remainder = true ∧ Begins s w fs := by
  obtain ⟨fs₀, replaced, hreset⟩ : ∃ fs₀ replaced,
      resetOutput fs s.output = .ok (fs₀, replaced) := by
    cases hreset : resetOutput fs s.output with
    | ok p => exact ⟨_, _, rfl⟩
    | error g =>
      simp only [packTree, hvalid, hwalk, packFrom, hreset, Except.error.injEq] at h
      exact absurd (h ▸ hreset) (resetOutput_ne hf)
  obtain ⟨fs₁, handle, hcreate⟩ : ∃ fs₁ handle, createOutput fs₀ s.output = .ok (fs₁, handle) := by
    cases hcreate : createOutput fs₀ s.output with
    | ok p => exact ⟨_, _, rfl⟩
    | error g =>
      simp only [packTree, hvalid, hwalk, packFrom, hreset, hcreate, Except.error.injEq] at h
      exact absurd (h ▸ hcreate) (createOutput_ne hf)
  rw [packTree_created hvalid hwalk hreset hcreate] at h
  constructor
  · -- a source that does not climb gives no such failure, whatever the run does
    obtain ⟨x, -, rfl⟩ := Walk.ofSettings_eq_ok.1 hwalk
    by_contra hnot
    exact addAll_result_ne (r := ⟨s, x, [s.output.normalize]⟩)
      (Settings.components_of_validate hvalid) (by simpa using hnot) hf
      (Walk.belowSource_of_fresh _) rfl h
  · rw [addAll] at h
    cases hnext : (w.skip s.output).next fs₁ with
    | none => simp [walking, hnext] at h
    | some pulled =>
      obtain ⟨item, w'⟩ := pulled
      refine ⟨fs₀, replaced, fs₁, handle, item, w', hreset, hcreate, hnext, ?_⟩
      rintro ⟨p, e, rfl⟩
      simp only [walking, hnext, Except.error.injEq] at h
      exact Rules.not_isFault_of_isRelative hf ⟨p, e, congrArg Except.error h.symm⟩

/-- Settings that pass every check never make a path come out outside the root. A walk gives a path
that is invalid below the root exactly where the source climbs and a file is found, and a run fails
with one exactly where the source climbs and the first item is no fault. -/
theorem relative_failures_iff_climbs (hvalid : s.validate fs = .ok ())
    (hwalk : Walk.ofSettings s = .ok w) :
    (∀ p root, .error (.outsideRoot p root) ∉ w.items fs) ∧
    ((∃ f : Failure, f.IsRelative ∧ .error f ∈ w.items fs) ↔
      climbs s.remainder = true ∧ ∃ names data, w.rules.Found fs names data) ∧
    ((∃ f : Failure, f.IsRelative ∧ (packTree s fs).result = .error f) ↔
      climbs s.remainder = true ∧ Begins s w fs) := by
  have hsource := Settings.components_of_validate hvalid
  obtain ⟨x, -, rfl⟩ := Walk.ofSettings_eq_ok.1 hwalk
  have hitems {f : Failure} (hf : f.IsRelative) : .error f ∈ Walk.items fs ⟨⟨s, x, []⟩, true, []⟩ ↔
      ∃ names data, Rules.Found ⟨s, x, []⟩ fs names data ∧
        .error f = Rules.itemOf ⟨s, x, []⟩ names data :=
    Walk.mem_items_of_fresh (Rules.not_isFault_of_isRelative hf)
  have hcases {names : List Name} {data : FileData}
      (hfound : Rules.Found ⟨s, x, []⟩ fs names data) :=
    Rules.itemOf_cases (r := ⟨s, x, []⟩) hsource hfound.listed.ne_nil hfound.listed.legal data
  refine ⟨?_, ⟨?_, ?_⟩, ⟨?_, ?_⟩⟩
  · intro p root h
    obtain ⟨names, data, hfound, hitem⟩ := (hitems (.inl ⟨p, root, rfl⟩)).1 h
    rcases hcases hfound with ⟨-, text, fault, herror⟩ | ⟨-, hne⟩
    · rw [herror] at hitem
      cases hitem
    · exact hne _ (.inl ⟨p, root, rfl⟩) hitem.symm
  · rintro ⟨f, hf, h⟩
    obtain ⟨names, data, hfound, hitem⟩ := (hitems hf).1 h
    rcases hcases hfound with ⟨hclimbs, -⟩ | ⟨-, hne⟩
    · exact ⟨hclimbs, names, data, hfound⟩
    · exact absurd hitem.symm (hne f hf)
  · rintro ⟨hclimbs, names, data, hfound⟩
    rcases hcases hfound with ⟨-, text, fault, herror⟩ | ⟨hclimbs', -⟩
    · have hf : (Failure.invalidRelativePath text fault).IsRelative := .inr ⟨text, fault, rfl⟩
      exact ⟨_, hf, (hitems hf).2 ⟨names, data, hfound, herror.symm⟩⟩
    · exact absurd (hclimbs.symm.trans hclimbs') (by simp)
  · rintro ⟨f, hf, h⟩
    exact begins_of_packTree hvalid hwalk hf h
  · rintro ⟨hclimbs, hbegins⟩
    obtain ⟨text, fault, h⟩ := packTree_of_climbs hvalid hwalk hclimbs hbegins
    exact ⟨_, .inr ⟨text, fault, rfl⟩, h⟩

/-- A file beside the packaging root, and an older archive. -/
def climbingTree : FileSystem :=
  .ofEntries 2
    [(.ofString "d", .directory 0o755
      [(.ofString "a.txt", .ofBytes 0 [0x61]), (.ofString "pkg", .directory 0o755 [])]),
    (.ofString "o.zip", .ofBytes 1 [0x6B])]
    (by cbv)

/-- The same without the archive. -/
def climbingTreeCleared : FileSystem :=
  .ofEntries 2
    [(.ofString "d", .directory 0o755
      [(.ofString "a.txt", .ofBytes 0 [0x61]), (.ofString "pkg", .directory 0o755 [])])]
    (by cbv)

def climbingSettings : Settings :=
  { Settings.forRoot (.ofString "/d/pkg") with
    source := .ofString "/d/pkg/.."
    output := .ofString "/o.zip" }

theorem relative_failures_iff_climbs_of_root :
    ¬∃ f : Failure, f.IsRelative ∧
      (packTree (Settings.forRoot (.ofString "/d")) climbingTree).result = .error f := by
  have hvalid : (Settings.forRoot (.ofString "/d")).validate climbingTree = .ok () := by cbv
  have hwalk : Walk.ofSettings (Settings.forRoot (.ofString "/d")) =
      .ok ⟨⟨Settings.forRoot (.ofString "/d"), Walk.plainExclusions, []⟩, true, []⟩ := by cbv
  intro h
  have hclimbs := ((relative_failures_iff_climbs hvalid hwalk).2.2.1 h).1
  have hnone : climbs (Settings.forRoot (.ofString "/d")).remainder = false := by cbv
  rw [hnone] at hclimbs
  cases hclimbs

/-- The tree with the new archive, which is empty yet. -/
def climbingTreeCreated : FileSystem :=
  .ofEntries 3
    [(.ofString "o.zip", .ofBytes 2 []), (.ofString "d", .directory 0o755
      [(.ofString "a.txt", .ofBytes 0 [0x61]), (.ofString "pkg", .directory 0o755 [])])]
    (by cbv)

/-- Settings pass every check, and the run takes the old archive away before it fails with a path
that is not below the root. -/
theorem climbing_source_loses_archive :
    climbingSettings.validate climbingTree = .ok () ∧
    (∃ w text fault, Walk.ofSettings climbingSettings = .ok w ∧
      .error (.invalidRelativePath text fault) ∈ w.items climbingTree) ∧
    resetOutput climbingTree climbingSettings.output = .ok (climbingTreeCleared, true) ∧
    ∃ text fault, (packTree climbingSettings climbingTree).result =
      .error (.invalidRelativePath text fault) := by
  have hvalid : climbingSettings.validate climbingTree = .ok () := by cbv
  have hwalk : Walk.ofSettings climbingSettings =
      .ok ⟨⟨climbingSettings, Walk.plainExclusions, []⟩, true, []⟩ := by cbv
  have hreset : resetOutput climbingTree climbingSettings.output =
      .ok (climbingTreeCleared, true) := by cbv
  have hcreate : createOutput climbingTreeCleared climbingSettings.output =
      .ok (climbingTreeCreated, ⟨[.ofString "o.zip"], 2⟩) := by cbv
  -- the first node below the source is a file, before and after the archive is made anew
  have hpull (skipped : List Path) (fs : FileSystem)
      (hbegin : (Rules.mk climbingSettings Walk.plainExclusions skipped).begin fs =
        .directory climbingSettings.source)
      (hlisting : (Rules.mk climbingSettings Walk.plainExclusions skipped).listing fs
        climbingSettings.source = [.ok ⟨.ofString "/d/pkg/../a.txt", .file, false⟩,
          .ok ⟨.ofString "/d/pkg/../pkg", .directory, false⟩])
      (hkeeps : (Rules.mk climbingSettings Walk.plainExclusions skipped).keeps
        (.ofString "/d/pkg/../a.txt") = true)
      (hleaf : ∃ text fault, (Rules.mk climbingSettings Walk.plainExclusions skipped).leaf fs
        ⟨.ofString "/d/pkg/../a.txt", .file, false⟩ =
          .item (.error (.invalidRelativePath text fault))) :
      ∃ text fault w, Walk.next fs ⟨⟨climbingSettings, Walk.plainExclusions, skipped⟩, true, []⟩ =
        some (.error (.invalidRelativePath text fault), w) := by
    obtain ⟨text, fault, hleaf⟩ := hleaf
    refine ⟨text, fault, _, Walk.next_of_first hbegin hlisting ?_⟩
    simp [Rules.visit, Rules.look, hkeeps, hleaf]
  obtain ⟨text, fault, w, hbefore⟩ := hpull [] climbingTree (by cbv) (by cbv) (by cbv)
    ⟨_, _, by cbv⟩
  obtain ⟨_, _, w', hafter⟩ := hpull [climbingSettings.output.normalize] climbingTreeCreated
    (by cbv) (by cbv) (by cbv) ⟨_, _, by cbv⟩
  refine ⟨hvalid, ⟨_, text, fault, hwalk, Walk.mem_items_of_next hbefore⟩, hreset, ?_⟩
  refine packTree_of_climbs hvalid hwalk (by cbv)
    ⟨_, _, _, _, _, w', hreset, hcreate, hafter, ?_⟩
  intro h
  obtain ⟨p, e, heq⟩ := h
  cases heq

end Pack

end TreeArchive
