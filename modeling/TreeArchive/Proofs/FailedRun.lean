import Mathlib
import TreeArchive.FileSystem.Literal
import TreeArchive.Proofs.Run

/-!
What a run leaves at its output. The archive is closed in any case, so what a failed run leaves
reads as a complete archive of the entries before the failure.
-/
namespace TreeArchive

open FileSystem

namespace Pack

variable {σ : Type} {source : Source σ} {s : Settings} {output : Path} {state : σ}
  {fs fs₀ fs₁ : FileSystem} {replaced : Bool} {handle : Handle}

/-- What stands at a handle once the archive is closed holds the complete archive. -/
theorem file_of_close {run : Run} {data : FileData} (houtput : run.output = handle)
    (hl : handle.location ≠ []) (hfile : (close run).1.get? handle.location = some (.file data))
    (hid : data.id = handle.id) :
    data.content = Archive.image run.writer.completed ∧
      data.records = some run.writer.completed := by
  subst houtput
  have hbare := bare_store run.fs run.output (Archive.image run.writer.completed)
    (some run.writer.completed)
  obtain ⟨node, hbefore, hnode⟩ := get?_of_bare_eq hbare hfile
  obtain ⟨data', rfl⟩ := Node.eq_file_of_bare hnode
  have hafter : (close run).1.get? run.output.location = _ := get?_update hbefore hl _
  rw [hfile, Node.mapFile] at hafter
  have hdata := Node.file.inj (Option.some.inj hafter)
  split at hdata
  · rw [hdata]
    exact ⟨rfl, rfl⟩
  · rename_i hother
    exact absurd (hdata ▸ hid) hother

/-- If nothing else changes the file system, its names are those that it had when the output was
created, and the output stands where it was created. -/
theorem packFrom_of_quiet {P : σ → Prop} (hquiet : source.Quiet P) (hstate : P state)
    (hreset : resetOutput fs output = .ok (fs₀, replaced))
    (hcreate : createOutput fs₀ output = .ok (fs₁, handle)) :
    (packFrom s output source state fs).fs.bare = fs₁.bare ∧
      (packFrom s output source state fs).fs.Holds handle := by
  obtain ⟨hfs, -⟩ := packFrom_created s source state hreset hcreate
  have hcreated := createNew_of_createOutput hcreate
  have houtput : (packedRun s output source state fs₁ handle replaced).1.output = handle :=
    addAll_output s source _ state _ _
  obtain ⟨hbare, hholds⟩ := addAll_frame hquiet s (source.limit fs₁ state) hstate
    ⟨fs₁, handle, .ofLevel s.level⟩ (Report.ofOutput output replaced)
  rw [hfs]
  constructor
  · exact (bare_store _ _ _ _).trans hbare
  · rw [close, houtput]
    exact (hholds (holds_createNew hcreated)).store _ _

/-- The output path leads to the file that the run created, whether or not a link at its end would
be followed, if nothing else changes the file system. -/
theorem find_created_of_quiet {P : σ → Prop} (hquiet : source.Quiet P) (hstate : P state)
    (hreset : resetOutput fs output = .ok (fs₀, replaced))
    (hcreate : createOutput fs₀ output = .ok (fs₁, handle)) (follow : Bool) :
    ∃ data, data.id = handle.id ∧ (packFrom s output source state fs).fs.find output follow =
      .ok (handle.location, .file data) := by
  obtain ⟨hbare, -, data, hget, hid⟩ := packFrom_of_quiet (s := s) hquiet hstate hreset hcreate
  -- no name has changed, so the path still leads to the location of the file that was created
  obtain ⟨node, hfind, hnode⟩ := find_of_bare_eq hbare.symm
    (find_createNew (createNew_of_createOutput hcreate) follow)
  rw [get?_of_find hfind] at hget
  cases hget
  exact ⟨data, hid, hfind⟩

theorem find_output_of_quiet {P : σ → Prop} (hquiet : source.Quiet P) (hstate : P state)
    (hreset : resetOutput fs output = .ok (fs₀, replaced))
    (hcreate : createOutput fs₀ output = .ok (fs₁, handle)) :
    ∃ data, data.id = handle.id ∧ (packFrom s output source state fs).fs.find output true =
      .ok (handle.location, .file data) :=
  find_created_of_quiet hquiet hstate hreset hcreate true

/-- Whether a run fails or not, once it has created its output it leaves a complete archive there,
of the entries that it completed and at most one more that it had started. If nothing else changes
the file system, the output path leads to this archive. -/
theorem complete_archive_after_run (s : Settings) (source : Source σ) (state : σ)
    (hreset : resetOutput fs output = .ok (fs₀, replaced))
    (hcreate : createOutput fs₀ output = .ok (fs₁, handle)) :
    let events := (packFrom s output source state fs).events
    let completed := (events.filterMap Event.completed?).map RelativePath.text
    ∃ records last, last.length ≤ 1 ∧
      records.map (fun record => record.member.name) = completed ++ last ∧
      completed ++ last <+: (events.filterMap Event.started?).map RelativePath.text ∧
      (∀ data, (packFrom s output source state fs).fs.get? handle.location = some (.file data) →
        data.id = handle.id →
          data.content = Archive.image records ∧ data.records = some records) ∧
      ∀ P : σ → Prop, source.Quiet P → P state → ∃ data, data.id = handle.id ∧
        (packFrom s output source state fs).fs.find output true =
          .ok (handle.location, .file data) := by
  obtain ⟨hfs, hevents, -⟩ := packFrom_created s source state hreset hcreate
  have houtput : (packedRun s output source state fs₁ handle replaced).1.output = handle :=
    addAll_output s source _ state _ _
  obtain ⟨last, hlast, hnames, hinit⟩ := addAll_names s source (source.limit fs₁ state) state
    ⟨fs₁, handle, .ofLevel s.level⟩ (Report.ofOutput output replaced)
  have hcompleted : (packFrom s output source state fs).events.filterMap Event.completed? =
      (packedRun s output source state fs₁ handle replaced).2.1.filterMap Event.completed? := by
    rcases hevents with h | h <;> simp [h, Event.completed?]
  have hstarted : (packFrom s output source state fs).events.filterMap Event.started? =
      (packedRun s output source state fs₁ handle replaced).2.1.filterMap Event.started? := by
    rcases hevents with h | h <;> simp [h, Event.started?]
  -- the records are those of the writer where the last entry or a failure left it
  refine ⟨(packedRun s output source state fs₁ handle replaced).1.writer.completed, last, hlast,
    ?_, ?_, ?_, ?_⟩
  · rw [hcompleted]
    exact hnames
  · rw [hcompleted, hstarted]
    exact hinit
  · intro data hfile hid
    rw [hfs] at hfile
    exact file_of_close houtput (holds_createNew (createNew_of_createOutput hcreate)).1 hfile hid
  · intro P hquiet hstate
    exact find_output_of_quiet hquiet hstate hreset hcreate

def interruptedTree : FileSystem :=
  .ofEntries 1 [(.ofString "pkg", .directory 0o755 [(.ofString "a.txt", .ofBytes 0 [0x61])])]
    (by cbv)

/-- The same with the output, which is empty yet. -/
def interruptedTreeCreated : FileSystem :=
  .ofEntries 2 [(.ofString "o.zip", .ofBytes 1 []),
    (.ofString "pkg", .directory 0o755 [(.ofString "a.txt", .ofBytes 0 [0x61])])] (by cbv)

def interruptedSettings : Settings :=
  { Settings.forRoot (.ofString "/pkg") with output := .ofString "/o.zip" }

/-- One file, and then a directory that cannot be listed. -/
def interruptedItems : List Supplied :=
  [⟨id, .ok ⟨.ofString "/pkg/a.txt", ⟨["a.txt".toList], by simp, by decide⟩, 1⟩⟩,
    ⟨id, .error (.walk (.ofString "/pkg/b") (.system .permissionDenied))⟩]

theorem complete_archive_after_run_interrupted :
    ∃ l data records, (packItems interruptedSettings interruptedSettings.output interruptedItems
        interruptedTree).fs.find interruptedSettings.output true = .ok (l, .file data) ∧
      data.records = some records := by
  have hreset : resetOutput interruptedTree interruptedSettings.output =
      .ok (interruptedTree, false) := by cbv
  have hcreate : createOutput interruptedTree interruptedSettings.output =
      .ok (interruptedTreeCreated, ⟨[.ofString "o.zip"], 1⟩) := by cbv
  obtain ⟨records, last, -, -, -, hcontent, hfind⟩ := complete_archive_after_run interruptedSettings
    suppliedItems interruptedItems hreset hcreate
  have hunchanged : ∀ supplied ∈ interruptedItems, ∀ fs, supplied.change fs = fs := by
    simp [interruptedItems]
  obtain ⟨data, hid, hfind⟩ := hfind _ quiet_suppliedItems hunchanged
  exact ⟨_, data, records, hfind, (hcontent data (get?_of_find hfind) hid).2⟩

def interruptedRun : Run × List Event × Except Failure Report :=
  packedRun interruptedSettings interruptedSettings.output suppliedItems interruptedItems
    interruptedTreeCreated ⟨[.ofString "o.zip"], 1⟩ false

/-- A run fails at its second item and leaves an archive that reads as complete. -/
theorem interrupted_run_leaves_archive :
    let packed := packItems interruptedSettings interruptedSettings.output interruptedItems
      interruptedTree
    packed.result = .error (.walk (.ofString "/pkg/b") (.system .permissionDenied)) ∧
    ∃ l data record, packed.fs.find interruptedSettings.output true = .ok (l, .file data) ∧
      data.records = some [record] ∧ record.member.name = "a.txt" ∧
      data.content = Archive.image [record] := by
  have hreset : resetOutput interruptedTree interruptedSettings.output =
      .ok (interruptedTree, false) := by cbv
  have hcreate : createOutput interruptedTree interruptedSettings.output =
      .ok (interruptedTreeCreated, ⟨[.ofString "o.zip"], 1⟩) := by cbv
  obtain ⟨hfs, -, hresult⟩ := packFrom_created interruptedSettings suppliedItems interruptedItems
    hreset hcreate
  have hfail : interruptedRun.2.2 =
      .error (.walk (.ofString "/pkg/b") (.system .permissionDenied)) := by cbv
  have hrecords : interruptedRun.1.writer.records = [] := by cbv
  obtain ⟨m, hcurrent, hname⟩ : ∃ m, interruptedRun.1.writer.current = some m ∧ m.name = "a.txt" :=
    ⟨_, by cbv, by cbv⟩
  have hcompleted : interruptedRun.1.writer.completed =
      [.ofMember interruptedRun.1.writer.level m] := by
    simp [Archive.Writer.completed, Archive.Writer.last, hrecords, hcurrent]
  have hunchanged : ∀ supplied ∈ interruptedItems, ∀ fs, supplied.change fs = fs := by
    simp [interruptedItems]
  obtain ⟨data, hid, hfind⟩ := find_output_of_quiet quiet_suppliedItems hunchanged hreset hcreate
  have hfile := get?_of_find hfind
  rw [hfs] at hfile
  obtain ⟨hcontent, hread⟩ := file_of_close (addAll_output _ _ _ _ _ _) (by simp) hfile hid
  refine ⟨(hresult _).2 hfail, _, data, _, hfind, hread.trans (congrArg some hcompleted), hname, ?_⟩
  exact hcontent.trans (congrArg Archive.image hcompleted)

end Pack

end TreeArchive
