import TreeArchive.CommandLine.Arguments
import TreeArchive.Proofs.DryRun
import TreeArchive.Proofs.NormalForm

/-!
What a command line cannot ask for. Its paths are put in normal form from the current directory on
and its level has been read as one, so a run never fails because of the level or because of where a
path lies, and a source beside the root is told before anything is touched.
-/
namespace TreeArchive

open CommandLine

theorem mem_of_mapM_id_error {α ε : Type} {xs : List (Except ε α)} {e : ε}
    (h : xs.mapM id = .error e) : .error e ∈ xs := by
  induction xs with
  | nil => cases h
  | cons x rest ih =>
    rw [List.mapM_cons] at h
    rcases bind_eq_error.1 h with h | ⟨a, -, h⟩
    · exact h ▸ List.mem_cons_self
    · rcases bind_eq_error.1 h with h | ⟨as, -, h⟩
      · exact List.mem_cons_of_mem _ (ih h)
      · cases h

namespace Settings

variable {s : Settings} {fs : FileSystem} {f : Failure} {level : UInt8}

theorem validate_of_exclusions_error (hlevel : isLevel s.level = true)
    (h : s.exclusions = .error f) (fs : FileSystem) : s.validate fs = .error f := by
  simp [validate, hlevel, h, bind, Except.bind]

theorem validate_of_outside {x : Exclusions} (hlevel : isLevel s.level = true)
    (hx : s.exclusions = .ok x) (h : s.source.startsWith s.root = false) (fs : FileSystem) :
    s.validate fs = .error (.sourceOutsideRoot s.source s.root) := by
  simp [validate, hlevel, hx, h, bind, Except.bind]

/-- The checks behind that of the level, each with its failure. -/
theorem validate_eq_error (hlevel : isLevel s.level = true) (h : s.validate fs = .error f) :
    s.exclusions = .error f ∨ f = .sourceOutsideRoot s.source s.root ∨
      s.checkSource fs = .error f ∨ f = .outputIsDirectory s.output := by
  cases hx : s.exclusions with
  | error g =>
    rw [validate_of_exclusions_error hlevel hx] at h
    exact .inl (congrArg _ (Except.error.inj h))
  | ok x =>
    cases hstarts : s.source.startsWith s.root with
    | false =>
      rw [validate_of_outside hlevel hx hstarts] at h
      exact .inr (.inl (Except.error.inj h).symm)
    | true =>
      cases hsource : s.checkSource fs with
      | error g =>
        simp only [validate, hlevel, hx, hstarts, hsource, bind, Except.bind, Bool.not_true,
          Bool.false_eq_true, if_false] at h
        exact .inr (.inr (.inl h))
      | ok u =>
        simp only [validate, hlevel, hx, hstarts, hsource, bind, Except.bind, Bool.not_true,
          Bool.false_eq_true, if_false] at h
        split at h
        · exact .inr (.inr (.inr (Except.error.inj h).symm))
        · cases h

theorem validate_ne_level (hlevel : isLevel s.level = true) :
    s.validate fs ≠ .error (.invalidCompressionLevel level) := by
  intro h
  rcases validate_eq_error hlevel h with h | h | h | h
  · obtain ⟨_, _, heq⟩ := exclusions_error h
    cases heq
  · cases h
  · unfold checkSource at h
    repeat' split at h
    all_goals cases h
  · cases h

/-- The settings of a run whose level is one and whose paths start at the root of the file system
and have no `.` or `..`. -/
structure Sound (s : Settings) : Prop where
  level : isLevel s.level = true
  root : s.root.Plain
  source : s.source.Plain

theorem Sound.climbs_remainder (h : s.Sound) : climbs s.remainder = false := by
  obtain ⟨rootNames, -, hroot⟩ := h.root.components
  obtain ⟨names, -, hsource⟩ := h.source.components
  have hnames : s.remainder = [] ++ (names.drop rootNames.length).map .normal := by
    simp [remainder, hroot, hsource, List.map_drop]
  rw [hnames, climbs_append_normal]
  rfl

end Settings

/-- The failures that a command line rules out. -/
def Failure.IsRuledOut (f : Failure) : Prop :=
  f.IsRelative ∨ ∃ level, f = .invalidCompressionLevel level

namespace Pack

variable {s : Settings} {fs : FileSystem} {f : Failure} {w : Walk} {level : UInt8}

theorem exists_walk_of_validate (h : s.validate fs = .ok ()) :
    ∃ w, Walk.ofSettings s = .ok w := by
  obtain ⟨-, ⟨x, hx⟩, -⟩ := Settings.validate_eq_ok.1 h
  exact ⟨_, Walk.ofSettings_eq_ok.2 ⟨x, hx, rfl⟩⟩

/-- What a check of the settings finds wrong ends the run, and nothing has been touched. -/
theorem packTree_of_validate_error (h : s.validate fs = .error f) :
    packTree s fs = ⟨fs, [], .error f⟩ := by
  simp only [packTree, h]

theorem dryRun_of_validate_error (h : s.validate fs = .error f) : dryRun s fs = .error f := by
  simp only [dryRun, h, bind, Except.bind]

theorem resetOutput_error {output : Path} (h : resetOutput fs output = .error f) :
    f = .outputIsDirectory output ∨ ∃ e, f = .removeOutput output e := by
  unfold resetOutput at h
  split at h
  · exact .inl (Except.error.inj h).symm
  · split at h
    · cases h
    · split at h
      · cases h
      · exact .inr ⟨_, (Except.error.inj h).symm⟩
  · split at h
    · cases h
    · exact .inr ⟨_, (Except.error.inj h).symm⟩

theorem packTree_ne_level (hlevel : Settings.isLevel s.level = true) :
    (packTree s fs).result ≠ .error (.invalidCompressionLevel level) := by
  intro h
  cases hvalid : s.validate fs with
  | error g =>
    rw [packTree_of_validate_error hvalid] at h
    obtain rfl := Except.error.inj h
    exact Settings.validate_ne_level hlevel hvalid
  | ok u =>
    obtain ⟨w, hwalk⟩ := exists_walk_of_validate hvalid
    cases hreset : resetOutput fs s.output with
    | error g =>
      simp only [packTree, hvalid, hwalk, packFrom, hreset, Except.error.injEq] at h
      rcases resetOutput_error hreset with heq | ⟨_, heq⟩ <;> rw [h] at heq <;> cases heq
    | ok reset =>
      obtain ⟨fs₀, replaced⟩ := reset
      cases hcreate : createOutput fs₀ s.output with
      | error g =>
        simp only [packTree, hvalid, hwalk, packFrom, hreset, hcreate, Except.error.injEq] at h
        obtain ⟨_, -, ⟨heq, -⟩ | heq⟩ := createOutput_error hcreate <;> rw [h] at heq <;> cases heq
      | ok created =>
        obtain ⟨fs₁, handle⟩ := created
        rw [packTree_created hvalid hwalk hreset hcreate] at h
        obtain ⟨x, -, rfl⟩ := Walk.ofSettings_eq_ok.1 hwalk
        cases precedesOutput_of_addAll (Walk.belowSource_of_fresh _) h

/-- What ends a listing is a fault of the walk or a path that has no relative form. -/
theorem dryRun_error (hvalid : s.validate fs = .ok ()) (h : dryRun s fs = .error f) :
    Rules.IsFault (.error f) ∨ ∃ x names data, names ≠ [] ∧ (∀ n ∈ names, isLegalName n = true) ∧
      .error f = Rules.itemOf ⟨s, x, [s.output.normalize]⟩ names data := by
  obtain ⟨w, hwalk⟩ := exists_walk_of_validate hvalid
  rw [dryRun_eq hvalid hwalk, Walk.skip_eq hwalk] at h
  by_cases hfault : Rules.IsFault (.error f)
  · exact .inl hfault
  · obtain ⟨names, data, hfound, hitem⟩ :=
      (Walk.mem_items_of_fresh hfault).1 (mem_of_mapM_id_error h)
    exact .inr ⟨_, names, data, hfound.listed.ne_nil, hfound.listed.legal, hitem⟩

theorem dryRun_ne_level (hlevel : Settings.isLevel s.level = true) :
    dryRun s fs ≠ .error (.invalidCompressionLevel level) := by
  intro h
  cases hvalid : s.validate fs with
  | error g =>
    rw [dryRun_of_validate_error hvalid] at h
    obtain rfl := Except.error.inj h
    exact Settings.validate_ne_level hlevel hvalid
  | ok u =>
    rcases dryRun_error hvalid h with ⟨_, _, heq⟩ | ⟨x, names, data, -, -, hitem⟩
    · cases heq
    · unfold Rules.itemOf at hitem
      cases hrelative : RelativePath.fromRoot (s.source.below names) s.root with
      | ok relative => simp [hrelative, Except.map] at hitem
      | error g =>
        simp only [hrelative, Except.map, Except.error.injEq] at hitem
        rcases RelativePath.fromRoot_error hrelative with heq | heq | ⟨_, _, heq⟩ <;>
          rw [← hitem] at heq <;> cases heq

theorem validate_ne_relative (hf : f.IsRelative) : s.validate fs ≠ .error f := by
  intro h
  rcases Settings.validate_error h with hsettings | ⟨_, rfl⟩
  · rcases hf with ⟨_, _, rfl⟩ | ⟨_, _, rfl⟩ <;> cases hsettings
  · rcases hf with ⟨_, _, heq⟩ | ⟨_, _, heq⟩ <;> cases heq

/-- A run with sound settings fails neither because of its level nor because of where a path lies.
-/
theorem packTree_not_ruledOut (hs : s.Sound) (h : (packTree s fs).result = .error f) :
    ¬f.IsRuledOut := by
  rintro (hf | ⟨level, rfl⟩)
  · cases hvalid : s.validate fs with
    | error g =>
      rw [packTree_of_validate_error hvalid] at h
      obtain rfl := Except.error.inj h
      exact validate_ne_relative hf hvalid
    | ok u =>
      obtain ⟨w, hwalk⟩ := exists_walk_of_validate hvalid
      have hclimbs := (begins_of_packTree hvalid hwalk hf h).1
      rw [hs.climbs_remainder] at hclimbs
      cases hclimbs
  · exact packTree_ne_level hs.level h

theorem dryRun_not_ruledOut (hs : s.Sound) (h : dryRun s fs = .error f) : ¬f.IsRuledOut := by
  rintro (hf | ⟨level, rfl⟩)
  · cases hvalid : s.validate fs with
    | error g =>
      rw [dryRun_of_validate_error hvalid] at h
      obtain rfl := Except.error.inj h
      exact validate_ne_relative hf hvalid
    | ok u =>
      rcases dryRun_error hvalid h with hfault | ⟨x, names, data, hne, hlegal, hitem⟩
      · exact Rules.not_isFault_of_isRelative hf hfault
      · rcases Rules.itemOf_cases (r := ⟨s, x, [s.output.normalize]⟩)
          (Settings.components_of_validate hvalid) hne hlegal data with ⟨hclimbs, -⟩ | ⟨-, hnot⟩
        · exact absurd (hclimbs.symm.trans hs.climbs_remainder) (by simp)
        · exact hnot f hf hitem.symm
  · exact dryRun_ne_level hs.level h

end Pack

namespace CommandLine.Arguments

variable {here : Path}

theorem plain_place (h : here.isAbsolute = true) (p : Path) : (place here p).Plain :=
  Path.plain_normalize (Path.isAbsolute_append h p)

/-- Whatever the words were, the settings that they stand for are sound. -/
theorem sound_settings (h : here.isAbsolute = true) (a : Arguments) : (a.settings here).Sound := by
  have hroot : ((a.root.map (place here)).getD here.normalize).Plain := by
    cases a.root with
    | none => exact Path.plain_normalize h
    | some p => exact plain_place h p
  refine ⟨?_, hroot, ?_⟩
  · change Settings.isLevel ((a.level.map Subtype.val).getD 6) = true
    cases a.level with
    | none => rfl
    | some level => exact level.2
  · change ((a.source.map (place here)).getD _).Plain
    cases a.source with
    | none => exact hroot
    | some p => exact plain_place h p

/-- The settings of a command line have paths from the root of the file system on without `.` and
`..`, and a level that no setting of it refuses. No run with them fails because of the level or
because of where a path lies. A source that is neither the root nor below it is told, unless an
exclusion pattern is at fault, and nothing has been touched. -/
theorem settings_rule_out (hhere : here.isAbsolute = true) (a : Arguments) (fs : FileSystem) :
    let s := a.settings here
    s.root.Plain ∧ s.source.Plain ∧ Settings.isLevel s.level = true ∧
    (∀ base : Settings, ∀ l ∈ a.level, base.withLevel l.val = .ok { base with level := l.val }) ∧
    (∀ f : Failure, f.IsRuledOut →
      (Pack.packTree s fs).result ≠ .error f ∧ Pack.dryRun s fs ≠ .error f) ∧
    (¬s.root.components <+: s.source.components → ∃ f,
      Pack.packTree s fs = ⟨fs, [], .error f⟩ ∧ Pack.dryRun s fs = .error f ∧
      ((s.exclusions = .error f ∧ ∃ text fault, f = .invalidPattern text fault) ∨
        ((∃ x, s.exclusions = .ok x) ∧ f = .sourceOutsideRoot s.source s.root))) := by
  intro s
  have hs : s.Sound := sound_settings hhere a
  refine ⟨hs.root, hs.source, hs.level, ?_, ?_, ?_⟩
  · intro base l _
    rw [Settings.withLevel, if_pos l.2]
  · intro f hf
    exact ⟨fun h => Pack.packTree_not_ruledOut hs h hf, fun h => Pack.dryRun_not_ruledOut hs h hf⟩
  · intro houtside
    obtain ⟨f, hvalid, hf⟩ : ∃ f, s.validate fs = .error f ∧
        ((s.exclusions = .error f ∧ ∃ text fault, f = .invalidPattern text fault) ∨
          ((∃ x, s.exclusions = .ok x) ∧ f = .sourceOutsideRoot s.source s.root)) := by
      cases hx : s.exclusions with
      | error f =>
        exact ⟨f, Settings.validate_of_exclusions_error hs.level hx fs,
          .inl ⟨rfl, Settings.exclusions_error hx⟩⟩
      | ok x =>
        have hstarts : s.source.startsWith s.root = false := by
          rw [Path.startsWith, Bool.eq_false_iff]
          exact fun h => houtside (List.isPrefixOf_iff_prefix.1 h)
        exact ⟨_, Settings.validate_of_outside hs.level hx hstarts fs, .inr ⟨⟨x, rfl⟩, rfl⟩⟩
    exact ⟨f, Pack.packTree_of_validate_error hvalid, Pack.dryRun_of_validate_error hvalid, hf⟩

/-- What the words `--compression-level=9 ../e/.` say. -/
def besideArguments : Arguments :=
  { Arguments.empty with source := some (.ofString "../e/."), level := some ⟨9, by decide⟩ }

theorem settings_rule_out_beside :
    parse [word "--compression-level=9", word "../e/."] = .ok besideArguments ∧
    (besideArguments.settings (.ofString "/d")).source.Plain ∧
    Pack.packTree (besideArguments.settings (.ofString "/d")) Pack.climbingTree =
      ⟨Pack.climbingTree, [], .error (.sourceOutsideRoot (.ofString "/e") (.ofString "/d"))⟩ := by
  have hsource : (besideArguments.settings (.ofString "/d")).source = .ofString "/e" := by cbv
  have hroot : (besideArguments.settings (.ofString "/d")).root = .ofString "/d" := by cbv
  obtain ⟨-, hplain, -, -, -, houtside⟩ :=
    settings_rule_out (by cbv : (Path.ofString "/d").isAbsolute = true) besideArguments
      Pack.climbingTree
  obtain ⟨f, hpacked, -, ⟨hexclusions, -⟩ | ⟨-, rfl⟩⟩ := houtside (by rw [hsource, hroot]; decide)
  · have hx : (besideArguments.settings (.ofString "/d")).exclusions =
        .ok Walk.plainExclusions := by cbv
    cases hexclusions.symm.trans hx
  · rw [hsource, hroot] at hpacked
    exact ⟨by cbv, hplain, hpacked⟩

end CommandLine.Arguments

end TreeArchive
