import TreeArchive.Proofs.Cleared
import TreeArchive.Proofs.FailedRun
import TreeArchive.Proofs.SourceBelowRoot

/-!
What a run changes in the file system. Everything but the entry at the output path stays as it is,
and a run that fails before it has created its output changes nothing, unless the output path leads
through the very link that the run has removed.
-/
namespace TreeArchive

open FileSystem

/-- Failures that come before the output has been created. -/
def Failure.precedesOutput : Failure → Bool
  | .removeOutput .. | .outputExists _ | .createOutput .. => true
  | f => f.isSettingsError

namespace FileSystem

variable {fs fs' : FileSystem} {here : Place} {l : Location} {node : Node} {p : Path}

/-- Nothing stands below a free name or below what is no directory. -/
theorem get?_eq_none_below {other : Location}
    (hkind : ∀ node, fs.get? l = some node → node.kind ≠ .directory) (hinit : l <+: other)
    (hne : other ≠ l) : fs.get? other = none := by
  cases hother : fs.get? other with
  | none => rfl
  | some inner =>
    obtain ⟨rest, rfl⟩ := hinit
    obtain ⟨node, hnode⟩ : ∃ node, fs.get? l = some node := by
      rw [get?, Node.get?_append] at hother
      obtain ⟨node, hnode, -⟩ := Option.bind_eq_some_iff.1 hother
      exact ⟨node, hnode⟩
    have hinit := List.prefix_append l rest
    exact absurd (eq_of_prefix_of_get? hnode (hkind node hnode) hinit hother) hne

/-- If a location holds no directory before or after a change there, the change is seen nowhere
else. -/
theorem SameElsewhere.shell_of_ne {fs' : FileSystem} (h : fs.SameElsewhere fs' l)
    (hkind : ∀ node, fs.get? l = some node → node.kind ≠ .directory)
    (hkind' : ∀ node, fs'.get? l = some node → node.kind ≠ .directory) {other : Location}
    (hne : other ≠ l) : (fs'.get? other).map Node.shell = (fs.get? other).map Node.shell := by
  by_cases hinit : l <+: other
  · rw [get?_eq_none_below hkind hinit hne, get?_eq_none_below hkind' hinit hne]
  · exact h.shell other hinit

/-- Steps that are followed to their end do not end at a link. -/
theorem kind_ne_link_of_walk {budget : Nat} {steps : List Name} {place : Place}
    (h : fs.Placed here) (hhere : steps = [] → here.node.kind ≠ .link)
    (hwalk : fs.walk true budget here steps = .ok (.occupied place)) :
    place.node.kind ≠ .link := by
  have hdirectory {here : Place} {rest : List Name} (hdir : here.node.kind = .directory) :
      rest = [] → here.node.kind ≠ .link := by
    intro _ hlink
    rw [hdir] at hlink
    cases hlink
  induction budget, here, steps using fs.walk_induct with
  | done budget here =>
    rw [walk] at hwalk
    cases hwalk
    exact hhere rfl
  | dot budget here rest hdir ih =>
    rw [walk_dot hdir] at hwalk
    exact ih h (hdirectory hdir) hwalk
  | dotDot budget here rest hdir ih =>
    rw [walk_dotDot hdir] at hwalk
    exact ih h.parent (hdirectory h.kind_parent) hwalk
  | long budget here step rest hdir hdot hdotDot hlong =>
    rw [walk_long hdir hdot hdotDot hlong] at hwalk
    cases hwalk
  | missing budget here step rest hdir hstep hchild =>
    rw [walk_missing hdir hstep hchild] at hwalk
    split at hwalk <;> cases hwalk
  | link budget here step rest there target hdir hstep hchild hlink ih =>
    rw [walk_link hdir hstep hchild hlink, if_neg (by simp)] at hwalk
    cases budget with
    | zero => cases hwalk
    | succ left =>
      by_cases habsolute : target.isAbsolute = true
      · simp only [habsolute, if_true] at ih hwalk
        exact ih left rfl .root (hdirectory fs.rooted) hwalk
      · simp only [habsolute, if_false, Bool.false_eq_true] at ih hwalk
        exact ih left rfl h (hdirectory hdir) hwalk
  | node budget here step rest there hdir hstep hchild hlink ih =>
    rw [walk_node hdir hstep hchild hlink] at hwalk
    exact ih (h.child hchild) (fun _ => hlink) hwalk
  | blocked budget here step rest hblocked =>
    rw [walk_not_directory hblocked] at hwalk
    cases hwalk

theorem kind_ne_link_of_find (h : fs.find p true = .ok (l, node)) : node.kind ≠ .link := by
  obtain ⟨hcheck, here, place, hstart, hwalk, -, rfl⟩ := find_walk h
  apply kind_ne_link_of_walk (placed_of_start hstart) _ hwalk
  intro hsteps
  -- a path without steps leads to the root
  have hbytes := List.isEmpty_eq_false_iff.1 (checkPath_eq_ok.1 hcheck).2.1
  have habsolute := Path.isAbsolute_of_steps_eq_nil hsteps hbytes
  have hroot : fs.start p = .ok fs.rootPlace := by simp [start, habsolute]
  rw [hroot] at hstart
  cases hstart
  have hkind : fs.rootPlace.node.kind = .directory := fs.rooted
  rw [hkind]
  simp

theorem walk_ne_fileExists {follow : Bool} {budget : Nat} {steps : List Name} :
    fs.walk follow budget here steps ≠ .error .fileExists := by
  have hother {e : Errno} (h : e ≠ .fileExists) :
      (.error e : Except Errno Spot) ≠ .error .fileExists :=
    fun heq => h (Except.error.inj heq)
  fun_induction walk fs follow budget here steps with
  | case1 | case5 | case7 => simp
  | case2 _ _ _ _ _ _ ih => exact ih
  | case3 _ _ _ _ _ _ _ ih => exact ih
  | case4 | case6 | case8 | case11 => exact hother (by decide)
  | case9 _ _ _ _ _ _ _ _ _ _ _ _ _ _ _ ih => exact ih
  | case10 _ _ _ _ _ _ _ _ _ _ _ _ _ ih => exact ih

theorem resolve_ne_fileExists {steps : List Name} {links : Bool} :
    fs.resolve p steps links ≠ .error (.system .fileExists) := by
  unfold resolve
  cases hstart : fs.start p with
  | error e =>
    have he : e = .noEntry := by
      simp only [start] at hstart
      split at hstart <;> cases hstart
      rfl
    subst he
    exact fun h => absurd (IoError.system.inj (Except.error.inj h)) (by decide)
  | ok here =>
    intro h
    simp only [bind, Except.bind] at h
    split at h
    · cases h
    · rename_i e hwalk
      obtain rfl : e = .fileExists := IoError.system.inj (Except.error.inj h)
      exact walk_ne_fileExists hwalk

theorem checkPath_ne_fileExists : checkPath p ≠ .error (.system .fileExists) := by
  unfold checkPath
  intro h
  repeat' split at h
  all_goals exact absurd h (by decide)

/-- Creating a file meets something only where its path leads to a node. -/
theorem exists_of_createNew_fileExists (h : fs.createNew p = .error (.system .fileExists)) :
    ∃ found, fs.find p false = .ok found := by
  unfold createNew at h
  split at h
  · rcases bind_eq_error.1 h with h | ⟨u, -, h⟩
    · exact absurd h checkPath_ne_fileExists
    · rcases bind_eq_error.1 h with h | ⟨spot, -, h⟩
      · exact absurd h resolve_ne_fileExists
      · split at h <;> exact absurd (IoError.system.inj (Except.error.inj h)) (by decide)
  · rcases bind_eq_error.1 h with h | ⟨spot, hlocate, h⟩
    · rcases bind_eq_error.1 h with h | ⟨u, -, h⟩
      · exact absurd h checkPath_ne_fileExists
      · exact absurd h resolve_ne_fileExists
    · cases spot with
      | occupied place => exact ⟨_, find_eq_ok.2 ⟨place, hlocate, rfl, rfl⟩⟩
      | vacant directory name =>
        rcases bind_eq_error.1 h with h | ⟨grown, -, h⟩
        · unfold addFile at h
          split at h
          · cases h
          · exact absurd (IoError.system.inj (Except.error.inj h)) (by decide)
        · cases h

end FileSystem

namespace Settings

variable {s : Settings} {fs : FileSystem} {f : Failure}

theorem exclusions_error (h : s.exclusions = .error f) :
    ∃ text fault, f = .invalidPattern text fault := by
  have hcompile {text : String} {caseSensitive : Bool} {f : Failure}
      (h : Pattern.compile text caseSensitive = .error f) :
      ∃ text fault, f = .invalidPattern text fault := by
    unfold Pattern.compile at h
    dsimp only at h
    split at h
    · exact ⟨_, _, (Except.error.inj h).symm⟩
    · split at h
      · exact ⟨_, _, (Except.error.inj h).symm⟩
      · cases h
  have hall (texts : List String)
      (h : texts.mapM (Pattern.compile · s.caseSensitive) = .error f) :
      ∃ text fault, f = .invalidPattern text fault := by
    induction texts with
    | nil => cases h
    | cons text rest ih =>
      rw [List.mapM_cons] at h
      rcases bind_eq_error.1 h with h | ⟨pattern, -, h⟩
      · exact hcompile h
      · rcases bind_eq_error.1 h with h | ⟨patterns, -, h⟩
        · exact ih h
        · cases h
  unfold exclusions Exclusions.compile at h
  apply hall s.excludes
  cases hmap : s.excludes.mapM (Pattern.compile · s.caseSensitive) with
  | error g =>
    rw [hmap] at h
    cases h
    rfl
  | ok patterns =>
    rw [hmap] at h
    cases h

/-- A check fails because of a setting, or because the source cannot be looked up. -/
theorem validate_error (h : s.validate fs = .error f) :
    f.isSettingsError = true ∨ ∃ e, f = .walk s.source e := by
  have hguard {c : Bool} {g : Failure} {rest : Except Failure Unit}
      (h : (if (!c) = true then (.error g : Except Failure Unit) >>= fun _ => rest else rest) =
        .error f) : f = g ∨ rest = .error f := by
    cases c with
    | false => exact .inl (Except.error.inj h).symm
    | true => exact .inr h
  unfold validate at h
  dsimp only at h
  rcases hguard h with rfl | h
  · exact .inl rfl
  · rcases bind_eq_error.1 h with h | ⟨x, -, h⟩
    · obtain ⟨text, fault, rfl⟩ := exclusions_error h
      exact .inl rfl
    · rcases hguard h with rfl | h
      · exact .inl rfl
      · rcases bind_eq_error.1 h with h | ⟨u, -, h⟩
        · unfold checkSource at h
          split at h
          · cases h
          · cases h
            exact .inl rfl
          · split at h
            · cases h
              exact .inl rfl
            · cases h
              exact .inr ⟨_, rfl⟩
        · split at h
          · cases h
            exact .inl rfl
          · cases h

end Settings

namespace Pack

section Frame

variable {σ : Type} {source : Source σ} {P : σ → Prop}

theorem sameElsewhere_addFile (s : Settings) (run : Run) (entry : Entry) :
    run.fs.SameElsewhere (addFile s run entry).run.fs run.output.location := by
  unfold addFile
  dsimp only
  split
  · exact .refl _ _
  · split
    · exact .refl _ _
    · rename_i writer _
      have hstore := sameElsewhere_store run.fs run.output writer.visible none
      split
      · exact hstore
      · split <;> exact hstore

theorem sameElsewhere_addAll (hquiet : source.Quiet P) (s : Settings) (limit : Nat) {state : σ}
    (hstate : P state) (run : Run) (report : Report) :
    run.fs.SameElsewhere (addAll s source limit state run report).1.fs run.output.location := by
  have hsame {fs fs' : FileSystem} {state : σ} {pulled : Option (Except Failure Entry × σ)}
      (hstate : P state) (hpull : source.pull fs state = (fs', pulled)) : fs' = fs := by
    rw [← (hquiet fs state hstate).1, hpull]
  fun_induction addAll s source limit state run report with
  | case1 => exact .refl _ _
  | case2 limit state run report fs hpull =>
    obtain rfl := hsame hstate hpull
    exact .refl _ _
  | case3 limit state run report fs f state' hpull =>
    obtain rfl := hsame hstate hpull
    exact .refl _ _
  | case4 limit state run report fs entry state' hpull added events f hresult =>
    obtain rfl := hsame hstate hpull
    exact sameElsewhere_addFile s run entry
  | case5 limit state run report fs entry state' hpull added events read hresult run' more result
      hrest ih =>
    have hnext : P state' := (hquiet run.fs state hstate).2 _ _ (by rw [hpull])
    obtain rfl := hsame hstate hpull
    rw [hrest] at ih
    have hadded := sameElsewhere_addFile s run entry
    have hlater := ih hnext
    rw [show added.run.output = run.output from (addFile_frame s run entry).1] at hlater
    exact hadded.trans hlater

/-- Once the output is created, a run writes to it and to nothing else. -/
theorem sameElsewhere_packFrom {fs fs₀ fs₁ : FileSystem} {output : Path} {replaced : Bool}
    {handle : Handle} {state : σ} (hquiet : source.Quiet P) (hstate : P state) (s : Settings)
    (hreset : resetOutput fs output = .ok (fs₀, replaced))
    (hcreate : createOutput fs₀ output = .ok (fs₁, handle)) :
    fs₁.SameElsewhere (packFrom s output source state fs).fs handle.location := by
  obtain ⟨hfs, -⟩ := packFrom_created s source state hreset hcreate
  have houtput : (packedRun s output source state fs₁ handle replaced).1.output = handle :=
    addAll_output s source _ state _ _
  have hrun : fs₁.SameElsewhere (packedRun s output source state fs₁ handle replaced).1.fs
      handle.location :=
    sameElsewhere_addAll hquiet s (source.limit fs₁ state) hstate
      ⟨fs₁, handle, .ofLevel s.level⟩ (Report.ofOutput output replaced)
  rw [hfs, close]
  apply hrun.trans
  conv => arg 3; rw [← houtput]
  exact sameElsewhere_store _ _ _ _

end Frame

/-- Whatever the output path leads to is taken away, if it is no directory. -/
theorem resetOutput_of_find {fs : FileSystem} {output : Path} {l : Location} {node : Node}
    (hfind : fs.find output false = .ok (l, node)) (hkind : node.kind ≠ .directory) :
    resetOutput fs output = .ok (fs.erase l, true) := by
  have hunlink : fs.unlink output = .ok (fs.erase l) := by
    cases node with
    | directory mode nodes => exact absurd rfl hkind
    | _ => simp [unlink, hfind, bind, Except.bind]
  unfold resetOutput
  rw [hfind]
  cases node with
  | directory mode nodes => exact absurd rfl hkind
  | _ => simp [hunlink]

theorem resetOutput_cases (fs : FileSystem) (output : Path) :
    (∃ f, resetOutput fs output = .error f ∧ f.precedesOutput = true ∧ ∀ p, f ≠ .outputExists p) ∨
    (∃ l node, fs.find output false = .ok (l, node) ∧ node.kind ≠ .directory ∧
      resetOutput fs output = .ok (fs.erase l, true)) ∨
    (∃ e, fs.find output false = .error e ∧ resetOutput fs output = .ok (fs, false)) := by
  cases hfind : fs.find output false with
  | error e =>
    unfold resetOutput
    rw [hfind]
    cases hmissing : e.isNotFound with
    | true => exact .inr (.inr ⟨e, rfl, by simp [hmissing]⟩)
    | false => exact .inl ⟨.removeOutput output e, by simp [hmissing], rfl, by simp⟩
  | ok found =>
    obtain ⟨l, node⟩ := found
    by_cases hkind : node.kind = .directory
    · obtain ⟨mode, nodes, rfl⟩ := Node.exists_of_kind_directory hkind
      exact .inl ⟨.outputIsDirectory output, by rw [resetOutput, hfind], rfl, by simp⟩
    · exact .inr (.inl ⟨l, node, rfl, hkind, resetOutput_of_find hfind hkind⟩)

theorem createOutput_error {fs : FileSystem} {output : Path} {f : Failure}
    (h : createOutput fs output = .error f) : ∃ e, fs.createNew output = .error e ∧
      (f = .outputExists output ∧ e = .system .fileExists ∨ f = .createOutput output e) := by
  unfold createOutput at h
  split at h
  · cases h
  · rename_i e hcreate
    refine ⟨e, hcreate, ?_⟩
    split at h
    · rename_i hexists
      cases e with
      | system errno =>
        obtain rfl : errno = .fileExists := eq_of_beq hexists
        exact .inl ⟨(Except.error.inj h).symm, rfl⟩
      | nulByte => cases hexists
      | custom text => cases hexists
    · exact .inr (Except.error.inj h).symm

/-- What ends a run that has created its output is no failure that comes before. -/
theorem precedesOutput_of_addAll {s : Settings} {limit : Nat} {w : Walk} {run : Run}
    {report : Report} {f : Failure} (hw : w.BelowSource)
    (h : (addAll s walking limit w run report).2.2 = .error f) : f.precedesOutput = false := by
  rcases addAll_error hw h with ⟨p, e, heq⟩ | ⟨fs, names, data, -, hitem⟩ |
    ⟨p, e, rfl⟩ | ⟨e, rfl⟩ | ⟨e, rfl⟩
  · obtain rfl := Except.error.inj heq
    rfl
  · unfold Rules.itemOf at hitem
    cases hrelative : RelativePath.fromRoot (w.rules.settings.source.below names)
        w.rules.settings.root with
    | ok relative => simp [hrelative, Except.map] at hitem
    | error g =>
      simp only [hrelative, Except.map, Except.error.injEq] at hitem
      rcases RelativePath.fromRoot_error hrelative with rfl | rfl | ⟨text, fault, rfl⟩ <;>
        rw [hitem] <;> rfl
  · rfl
  · rfl
  · rfl

/-- The link at the end of a path stands also on the way to its own directory, and the way is too
long to follow the link once more. Without the link the path leads nowhere. -/
structure LeadsThroughItself (fs : FileSystem) (p : Path) (l : Location) : Prop where
  link : ∃ target, fs.find p false = .ok (l, .link target)
  tooMany : fs.find p true = .error (.system .tooManyLinks)
  lost : (fs.erase l).createNew p = .error (.system .noEntry)

/-- The output has been created at the place to which its path led before. -/
structure Created (fs : FileSystem) (output : Path) (fs₀ : FileSystem) (replaced : Bool)
    (fs₁ : FileSystem) (handle : Handle) : Prop where
  reset : resetOutput fs output = .ok (fs₀, replaced)
  create : createOutput fs₀ output = .ok (fs₁, handle)
  spot : ∃ spot, fs.locate output false = .ok spot ∧ spot.location = handle.location
  same : fs.SameElsewhere fs₁ handle.location
  kind : ∀ node, fs.get? handle.location = some node → node.kind ≠ .directory

theorem created_of_erase {fs fs₁ : FileSystem} {output : Path} {handle : Handle} {l : Location}
    {node : Node} (hfind : fs.find output false = .ok (l, node)) (hkind : node.kind ≠ .directory)
    (hreset : resetOutput fs output = .ok (fs.erase l, true))
    (hcreate : (fs.erase l).createNew output = .ok (fs₁, handle)) (hl : handle.location = l) :
    Created fs output (fs.erase l) true fs₁ handle where
  reset := hreset
  create := by rw [createOutput, hcreate]
  spot := by
    obtain ⟨place, hlocate, hplace, -⟩ := find_eq_ok.1 hfind
    exact ⟨_, hlocate, hplace.trans hl.symm⟩
  same := by
    have herase := sameElsewhere_erase fs l
    rw [← hl] at herase hcreate
    exact herase.trans (sameElsewhere_createNew hcreate)
  kind := by
    intro inner hinner
    rw [hl, get?_of_find hfind] at hinner
    cases hinner
    exact hkind

theorem created_of_vacant {fs fs₁ : FileSystem} {output : Path} {handle : Handle}
    (hreset : resetOutput fs output = .ok (fs, false))
    (hcreate : createOutput fs output = .ok (fs₁, handle)) :
    Created fs output fs false fs₁ handle := by
  have hnew := createNew_of_createOutput hcreate
  obtain ⟨directory, name, hlocate, hhandle, -, hnone, -⟩ := createNew_eq_ok hnew
  refine ⟨hreset, hcreate, ⟨_, hlocate, by rw [hhandle]; rfl⟩, sameElsewhere_createNew hnew, ?_⟩
  intro node hnode
  rw [hnone] at hnode
  cases hnode

/-- Packing fails before the output is created and leaves the file system as it was, it fails there
and has lost the link at the output, or it creates the output. -/
theorem packFrom_cases {σ : Type} (s : Settings) {fs : FileSystem} {output : Path}
    (source : Source σ) (state : σ)
    (hnone : ∀ l mode nodes, fs.find output true ≠ .ok (l, .directory mode nodes)) :
    (∃ f, packFrom s output source state fs = ⟨fs, [], .error f⟩ ∧ f.precedesOutput = true ∧
      ∀ p, f ≠ .outputExists p) ∨
    (∃ l, LeadsThroughItself fs output l ∧ packFrom s output source state fs =
      ⟨fs.erase l, [], .error (.createOutput output (.system .noEntry))⟩) ∨
    ∃ fs₀ replaced fs₁ handle, Created fs output fs₀ replaced fs₁ handle := by
  rcases resetOutput_cases fs output with ⟨f, hreset, hearly, hexists⟩ |
    ⟨l, node, hfind, hkind, hreset⟩ | ⟨e, hfind, hreset⟩
  · exact .inl ⟨f, by simp only [packFrom, hreset], hearly, hexists⟩
  · rcases createNew_erase_cases hfind hkind with ⟨fs₁, handle, hcreate, hl⟩ |
      ⟨hcreate, target, rfl, hthrough⟩
    · exact .inr (.inr ⟨_, _, _, _, created_of_erase hfind hkind hreset hcreate hl⟩)
    · -- the link would have been replaced if it led to anything that can be replaced
      have htooMany : fs.find output true = .error (.system .tooManyLinks) := by
        rcases hthrough with h | ⟨l', mode, nodes, h⟩
        · exact h
        · exact absurd h (hnone l' mode nodes)
      have hfail : createOutput (fs.erase l) output =
          .error (.createOutput output (.system .noEntry)) := by
        rw [createOutput, hcreate]
        rfl
      refine .inr (.inl ⟨l, ⟨⟨target, hfind⟩, htooMany, hcreate⟩, ?_⟩)
      simp only [packFrom, hreset, hfail]
  · cases hcreate : createOutput fs output with
    | error f =>
      obtain ⟨e', hnew, ⟨rfl, rfl⟩ | rfl⟩ := createOutput_error hcreate
      · -- nothing can be met where the path led nowhere before
        obtain ⟨found, hfound⟩ := exists_of_createNew_fileExists hnew
        rw [hfind] at hfound
        cases hfound
      · exact .inl ⟨.createOutput output e', by simp only [packFrom, hreset, hcreate], rfl, by simp⟩
    | ok created =>
      obtain ⟨fs₁, handle⟩ := created
      exact .inr (.inr ⟨_, _, _, _, created_of_vacant hreset hcreate⟩)

theorem packTree_cases (s : Settings) (fs : FileSystem) :
    (∃ f, packTree s fs = ⟨fs, [], .error f⟩ ∧
      (s.validate fs = .error f ∨ f.precedesOutput = true) ∧ ∀ p, f ≠ .outputExists p) ∨
    (∃ l, LeadsThroughItself fs s.output l ∧
      packTree s fs = ⟨fs.erase l, [], .error (.createOutput s.output (.system .noEntry))⟩) ∨
    ∃ w fs₀ replaced fs₁ handle, s.validate fs = .ok () ∧ Walk.ofSettings s = .ok w ∧
      Created fs s.output fs₀ replaced fs₁ handle := by
  cases hvalid : s.validate fs with
  | error f =>
    refine .inl ⟨f, by simp only [packTree, hvalid], .inl rfl, ?_⟩
    rintro p rfl
    rcases Settings.validate_error hvalid with hsettings | ⟨e, heq⟩
    · cases hsettings
    · cases heq
  | ok u =>
    obtain ⟨-, ⟨x, hx⟩, -, -, houtput⟩ := Settings.validate_eq_ok.1 hvalid
    have hwalk : Walk.ofSettings s = .ok ⟨⟨s, x, []⟩, true, []⟩ :=
      Walk.ofSettings_eq_ok.2 ⟨x, hx, rfl⟩
    have hnone (l : Location) (mode : Nat) (nodes : List (Name × Node)) :
        fs.find s.output true ≠ .ok (l, .directory mode nodes) := by
      intro h
      simp [Settings.outputIsDirectory, h] at houtput
    rw [packTree_eq hvalid hwalk]
    rcases packFrom_cases s walking (Walk.skip ⟨⟨s, x, []⟩, true, []⟩ s.output) hnone with
      ⟨f, hpacked, hearly, hexists⟩ | hlost | ⟨fs₀, replaced, fs₁, handle, hcreated⟩
    · exact .inl ⟨f, hpacked, .inr hearly, hexists⟩
    · exact .inr (.inl hlost)
    · exact .inr (.inr ⟨_, fs₀, replaced, fs₁, handle, rfl, hwalk, hcreated⟩)

/-- A run that fails in a check of its settings, or before it has created its output. -/
def FailsEarly (s : Settings) (fs : FileSystem) : Prop :=
  ∃ f, (packTree s fs).result = .error f ∧
    (s.validate fs = .error f ∨ f.precedesOutput = true)

variable {s : Settings} {fs fs₀ fs₁ : FileSystem} {w : Walk} {replaced : Bool} {handle : Handle}

/-- Once its output is created, a run writes to it and to nothing else. -/
theorem sameElsewhere_of_created (hvalid : s.validate fs = .ok ())
    (hwalk : Walk.ofSettings s = .ok w) (h : Created fs s.output fs₀ replaced fs₁ handle) :
    fs.SameElsewhere (packTree s fs).fs handle.location := by
  rw [packTree_eq hvalid hwalk]
  exact h.same.trans (sameElsewhere_packFrom quiet_walking trivial s h.reset h.create)

/-- A run that has created its output leaves a file there, whatever comes of it. -/
theorem find_output_of_created (hvalid : s.validate fs = .ok ())
    (hwalk : Walk.ofSettings s = .ok w) (h : Created fs s.output fs₀ replaced fs₁ handle) :
    ∃ data, (packTree s fs).fs.find s.output false = .ok (handle.location, .file data) := by
  rw [packTree_eq hvalid hwalk]
  obtain ⟨data, -, hfind⟩ := find_created_of_quiet quiet_walking trivial h.reset h.create false
  exact ⟨data, hfind⟩

theorem not_failsEarly_of_created (hvalid : s.validate fs = .ok ())
    (hwalk : Walk.ofSettings s = .ok w) (h : Created fs s.output fs₀ replaced fs₁ handle) :
    ¬FailsEarly s fs := by
  rintro ⟨f, hresult, hearly⟩
  rw [packTree_created hvalid hwalk h.reset h.create] at hresult
  obtain ⟨x, -, rfl⟩ := Walk.ofSettings_eq_ok.1 hwalk
  have hlate := precedesOutput_of_addAll (Walk.belowSource_of_fresh _) hresult
  rcases hearly with hearly | hearly
  · rw [hvalid] at hearly
    cases hearly
  · rw [hlate] at hearly
    cases hearly

theorem LeadsThroughItself.shell_erase {output : Path} {l : Location}
    (h : LeadsThroughItself fs output l) {other : Location} (hne : other ≠ l) :
    ((fs.erase l).get? other).map Node.shell = (fs.get? other).map Node.shell := by
  obtain ⟨target, hfind⟩ := h.link
  have hlink := get?_of_find hfind
  have hroot : l ≠ [] := by
    rintro rfl
    have hkind : Node.kind (.link target) = .directory := by
      rw [← Option.some.inj hlink]
      exact fs.rooted
    cases hkind
  apply (sameElsewhere_erase fs l).shell_of_ne _ _ hne
  · intro node hget
    obtain rfl := Option.some.inj (hlink.symm.trans hget)
    simp [Node.kind]
  · intro node hget
    rw [get?_erase hroot] at hget
    cases hget

/-- No other entry differs after a run than the one at the output path. -/
theorem packTree_entry (s : Settings) (fs : FileSystem) : (packTree s fs).fs = fs ∨
    ∃ spot, fs.locate s.output false = .ok spot ∧ ∀ l ≠ spot.location,
      ((packTree s fs).fs.get? l).map Node.shell = (fs.get? l).map Node.shell := by
  rcases packTree_cases s fs with ⟨f, hpacked, -⟩ | ⟨l, hthrough, hpacked⟩ |
    ⟨w, fs₀, replaced, fs₁, handle, hvalid, hwalk, hcreated⟩
  · left
    rw [hpacked]
  · right
    obtain ⟨target, hfind⟩ := hthrough.link
    obtain ⟨place, hlocate, rfl, -⟩ := find_eq_ok.1 hfind
    refine ⟨_, hlocate, ?_⟩
    intro l hl
    rw [hpacked]
    exact hthrough.shell_erase hl
  · right
    obtain ⟨spot, hlocate, hspot⟩ := hcreated.spot
    obtain ⟨data, hfile⟩ := find_output_of_created hvalid hwalk hcreated
    refine ⟨spot, hlocate, ?_⟩
    intro l hl
    rw [hspot] at hl
    apply (sameElsewhere_of_created hvalid hwalk hcreated).shell_of_ne hcreated.kind _ hl
    intro node hget
    obtain rfl := Option.some.inj ((get?_of_find hfile).symm.trans hget)
    simp [Node.kind]

/-- A run leaves alone what a link at the output path leads to. -/
theorem packTree_target {here l : Location} {target : Path} {node : Node}
    (hlink : fs.find s.output false = .ok (here, .link target))
    (hfind : fs.find s.output true = .ok (l, node)) :
    (packTree s fs).fs.get? l = some node := by
  have hget := get?_of_find hfind
  rcases packTree_cases s fs with ⟨f, hpacked, -⟩ | ⟨l', hthrough, hpacked⟩ |
    ⟨w, fs₀, replaced, fs₁, handle, hvalid, hwalk, hcreated⟩
  · rw [hpacked]
    exact hget
  · rw [hthrough.tooMany] at hfind
    cases hfind
  · obtain ⟨spot, hlocate, hspot⟩ := hcreated.spot
    obtain ⟨place, hplace, rfl, -⟩ := find_eq_ok.1 hlink
    obtain rfl : .occupied place = spot := Except.ok.inj (hplace.symm.trans hlocate)
    have hdirectory : node.kind ≠ .directory := by
      intro hkind
      obtain ⟨mode, nodes, rfl⟩ := Node.exists_of_kind_directory hkind
      obtain ⟨-, -, -, -, houtput⟩ := Settings.validate_eq_ok.1 hvalid
      simp [Settings.outputIsDirectory, hfind] at houtput
    -- the end of the link is not the link, and nothing stands below a link
    have hother : ¬handle.location <+: l := by
      intro hinit
      rw [← hspot] at hinit
      have hself := eq_of_prefix_of_get? (get?_of_find hlink) (by simp [Node.kind]) hinit hget
      rw [hself] at hget
      obtain rfl := Option.some.inj ((get?_of_find hlink).symm.trans hget)
      exact kind_ne_link_of_find hfind rfl
    exact (sameElsewhere_of_created hvalid hwalk hcreated).get?_eq hother hget hdirectory

theorem packTree_early (h : FailsEarly s fs) : (packTree s fs).events = [] ∧
    ((packTree s fs).fs = fs ∨ ∃ l, LeadsThroughItself fs s.output l ∧
      (packTree s fs).fs = fs.erase l ∧
      (packTree s fs).result = .error (.createOutput s.output (.system .noEntry))) := by
  rcases packTree_cases s fs with ⟨f, hpacked, -⟩ | ⟨l, hthrough, hpacked⟩ |
    ⟨w, fs₀, replaced, fs₁, handle, hvalid, hwalk, hcreated⟩
  · rw [hpacked]
    exact ⟨rfl, .inl rfl⟩
  · rw [hpacked]
    exact ⟨rfl, .inr ⟨l, hthrough, rfl, rfl⟩⟩
  · exact absurd h (not_failsEarly_of_created hvalid hwalk hcreated)

/-- A run that does not fail early has created its output. -/
theorem exists_created_of_late (h : ¬FailsEarly s fs) :
    ∃ w fs₀ replaced fs₁ handle, s.validate fs = .ok () ∧ Walk.ofSettings s = .ok w ∧
      Created fs s.output fs₀ replaced fs₁ handle := by
  rcases packTree_cases s fs with ⟨f, hpacked, hearly, -⟩ | ⟨l, -, hpacked⟩ | hcreated
  · exact absurd ⟨f, by rw [hpacked], hearly⟩ h
  · exact absurd ⟨_, by rw [hpacked], .inr rfl⟩ h
  · exact hcreated

theorem packTree_late (h : ¬FailsEarly s fs) : ∃ spot data, fs.locate s.output false = .ok spot ∧
    (packTree s fs).fs.find s.output false = .ok (spot.location, .file data) := by
  obtain ⟨w, fs₀, replaced, fs₁, handle, hvalid, hwalk, hcreated⟩ := exists_created_of_late h
  obtain ⟨spot, hlocate, hspot⟩ := hcreated.spot
  obtain ⟨data, hfile⟩ := find_output_of_created hvalid hwalk hcreated
  exact ⟨spot, data, hlocate, by rw [hspot, hfile]⟩

theorem packTree_ne_outputExists (s : Settings) (fs : FileSystem) (p : Path) :
    (packTree s fs).result ≠ .error (.outputExists p) := by
  rcases packTree_cases s fs with ⟨f, hpacked, -, hexists⟩ | ⟨l, -, hpacked⟩ |
    ⟨w, fs₀, replaced, fs₁, handle, hvalid, hwalk, hcreated⟩
  · rw [hpacked]
    exact fun h => hexists p (Except.error.inj h)
  · rw [hpacked]
    simp
  · exact fun h => not_failsEarly_of_created hvalid hwalk hcreated ⟨_, h, .inr rfl⟩

/-- Only the entry at the output path differs after a run, and what a link there leads to is left
alone. A run that fails early tells nothing and leaves the file system as it was, or without the
link at the output if that leads through itself; after any other run a file stands at the output. -/
theorem run_changes_only_output (s : Settings) (fs : FileSystem) :
    let packed := packTree s fs
    (packed.fs = fs ∨ ∃ spot, fs.locate s.output false = .ok spot ∧ ∀ l ≠ spot.location,
      (packed.fs.get? l).map Node.shell = (fs.get? l).map Node.shell) ∧
    (∀ here target, fs.find s.output false = .ok (here, .link target) →
      ∀ l node, fs.find s.output true = .ok (l, node) → packed.fs.get? l = some node) ∧
    (FailsEarly s fs → packed.events = [] ∧ (packed.fs = fs ∨
      ∃ l, LeadsThroughItself fs s.output l ∧ packed.fs = fs.erase l ∧
        packed.result = .error (.createOutput s.output (.system .noEntry)))) ∧
    (¬FailsEarly s fs → ∃ spot data, fs.locate s.output false = .ok spot ∧
      packed.fs.find s.output false = .ok (spot.location, .file data)) ∧
    ∀ p, packed.result ≠ .error (.outputExists p) := by
  refine ⟨packTree_entry s fs, ?_, packTree_early, packTree_late, packTree_ne_outputExists s fs⟩
  intro here target hlink l node hfind
  exact packTree_target hlink hfind

/-- An archive elsewhere, to which a link at the output leads. -/
def relinkedTree : FileSystem :=
  .ofEntries 2
    [(.ofString "pkg", .directory 0o755 [(.ofString "a.txt", .ofBytes 0 [0x61])]),
    (.ofString "o.zip", .link (.ofString "old.zip")), (.ofString "old.zip", .ofBytes 1 [0x6B])]
    (by cbv)

def relinkedSettings : Settings :=
  { Settings.forRoot (.ofString "/pkg") with output := .ofString "/o.zip" }

/-- The same with a new file in the place of the link. -/
def relinkedTreeCreated : FileSystem :=
  .ofEntries 3
    [(.ofString "o.zip", .ofBytes 2 []),
    (.ofString "pkg", .directory 0o755 [(.ofString "a.txt", .ofBytes 0 [0x61])]),
    (.ofString "old.zip", .ofBytes 1 [0x6B])]
    (by cbv)

theorem run_changes_only_output_relinked :
    (packTree relinkedSettings relinkedTree).fs.get? [.ofString "old.zip"] =
        some (.ofBytes 1 [0x6B]) ∧
      ∃ l data, (packTree relinkedSettings relinkedTree).fs.find relinkedSettings.output false =
        .ok (l, .file data) := by
  have hfind : relinkedTree.find relinkedSettings.output false =
      .ok ([.ofString "o.zip"], .link (.ofString "old.zip")) := by cbv
  have hvalid : relinkedSettings.validate relinkedTree = .ok () := by cbv
  have hwalk : Walk.ofSettings relinkedSettings =
      .ok ⟨⟨relinkedSettings, Walk.plainExclusions, []⟩, true, []⟩ := by cbv
  have hcreated : Created relinkedTree relinkedSettings.output
      (relinkedTree.erase [.ofString "o.zip"]) true relinkedTreeCreated
      ⟨[.ofString "o.zip"], 2⟩ := by
    apply created_of_erase hfind
    · simp [Node.kind]
    · cbv
    · cbv
    · rfl
  obtain ⟨-, htarget, -, hlate, -⟩ := run_changes_only_output relinkedSettings relinkedTree
  obtain ⟨spot, data, -, hfile⟩ := hlate (not_failsEarly_of_created hvalid hwalk hcreated)
  exact ⟨htarget _ _ hfind _ _ (by cbv), _, data, hfile⟩

/-- A directory with a link to itself in it, and an empty directory to pack. -/
def circularTree : FileSystem :=
  .ofEntries 0
    [(.ofString "d", .directory 0o755 [(.ofString "l", .link (.ofString "."))]),
    (.ofString "pkg", .directory 0o755 [])]
    (by cbv)

/-- The output is the link, by a path that goes through it as often as a path may. -/
def circularSettings : Settings :=
  { Settings.forRoot (.ofString "/pkg") with
    output := (Path.ofString "/d").below (List.replicate 41 (.ofString "l")) }

set_option maxRecDepth 4000 in
/-- The output cannot be created, and the link that was there is gone. -/
theorem circular_output_is_lost :
    circularSettings.validate circularTree = .ok () ∧
    (packTree circularSettings circularTree).result =
      .error (.createOutput circularSettings.output (.system .noEntry)) ∧
    circularTree.get? [.ofString "d", .ofString "l"] = some (.link (.ofString ".")) ∧
    (packTree circularSettings circularTree).fs.get? [.ofString "d", .ofString "l"] = none := by
  have hvalid : circularSettings.validate circularTree = .ok () := by cbv
  have hwalk : Walk.ofSettings circularSettings =
      .ok ⟨⟨circularSettings, Walk.plainExclusions, []⟩, true, []⟩ := by cbv
  have hreset : resetOutput circularTree circularSettings.output =
      .ok (circularTree.erase [.ofString "d", .ofString "l"], true) := by cbv
  have hcreate : createOutput (circularTree.erase [.ofString "d", .ofString "l"])
      circularSettings.output =
        .error (.createOutput circularSettings.output (.system .noEntry)) := by cbv
  have hpacked : packTree circularSettings circularTree =
      ⟨circularTree.erase [.ofString "d", .ofString "l"], [],
        .error (.createOutput circularSettings.output (.system .noEntry))⟩ := by
    rw [packTree_eq hvalid hwalk]
    simp only [packFrom, hreset, hcreate]
  rw [hpacked]
  exact ⟨hvalid, rfl, by cbv, get?_erase (by simp) circularTree⟩

end Pack

end TreeArchive
