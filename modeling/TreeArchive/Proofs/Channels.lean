import TreeArchive.Proofs.JsonRoundTrip
import TreeArchive.Proofs.Omitted
import TreeArchive.Proofs.PortableName
import TreeArchive.Proofs.ToldIncomplete

/-!
What a call writes to its two channels, and the status with which it ends. Names are shown and a
spinner is drawn while a run can still fail, so what is written is followed from the outcome and not
from the events. These meet in the document of a run that succeeds: its names come from the events,
and its count comes from the report.
-/
namespace TreeArchive

open CommandLine Console

namespace Json

theorem lookup_fieldValues (name : String) (fields : List (String × Json)) :
    (fieldValues fields).lookup name = (fields.lookup name).map value := by
  induction fields with
  | nil => rfl
  | cons field fields ih =>
    obtain ⟨key, field⟩ := field
    rw [fieldValues, List.lookup_cons, List.lookup_cons, ih]
    cases name == key <;> rfl

theorem field?_object (name : String) (fields : List (String × Json)) :
    (object fields).value.field? name = (fields.lookup name).map value := by
  rw [value, Value.field?, lookup_fieldValues]

end Json

namespace Pack

variable {σ : Type} {source : Source σ} {s : Settings} {fs : FileSystem} {report : Report}

/-- The report of a run that succeeds has counted the entries that are completed. -/
theorem filesAdded_of_addAll {limit : Nat} {state : σ} {run : Run} {report' : Report}
    (h : (addAll s source limit state run report).2.2 = .ok report') :
    report'.filesAdded = report.filesAdded +
      ((addAll s source limit state run report).2.1.filterMap Event.completed?).length := by
  fun_induction addAll s source limit state run report with
  | case1 =>
    cases h
    rfl
  | case2 =>
    cases h
    rfl
  | case3 => cases h
  | case4 => cases h
  | case5 limit state run report fs entry state' hpull added events read hresult run' more result
      hrest ih =>
    have hcompleted : events.filterMap Event.completed? = [] :=
      filterMap_completed?_bytes added.written
    have hthis : (Event.completed entry.relative :: more).filterMap Event.completed? =
        entry.relative :: more.filterMap Event.completed? := rfl
    rw [hrest] at ih
    have hmore := ih h
    simp only [count] at hmore
    rw [List.filterMap_append, hcompleted, hthis, hmore, List.nil_append, List.length_cons]
    omega

/-- A run that succeeds leaves an archive at its output with a member for each entry that it has
started, in that order, and its report counts the members. -/
theorem archive_of_success (hok : (packTree s fs).result = .ok report) :
    ∃ l records, Leaves (packTree s fs) s.output l records ∧
      records.map (fun record => record.member.name) = startedNames (packTree s fs).events ∧
      report.filesAdded = records.length := by
  have hlate : ¬FailsEarly s fs := by
    rintro ⟨f, hf, -⟩
    rw [hok] at hf
    cases hf
  obtain ⟨w, fs₀, replaced, fs₁, handle, hvalid, hwalk, hcreated⟩ := exists_created_of_late hlate
  obtain ⟨report', hrun⟩ := packedRun_of_success hwalk hcreated hok
  obtain ⟨records, hleaves, hnames⟩ := names_of_success hwalk hcreated hok
  have hevents := events_of_created s walking (w.skip s.output) hcreated.reset hcreated.create
  have hresult := result_of_created s walking (w.skip s.output) hcreated.reset hcreated.create
  rw [← packTree_eq hvalid hwalk] at hevents hresult
  simp only [hrun] at hevents
  simp only [hok, hrun] at hresult
  have hstarted : (packedRun s s.output walking (w.skip s.output) fs₁ handle
      replaced).2.1.filterMap Event.started? =
        (takenFromTree s w fs₁ handle).map fun t => t.2.relative :=
    started_eq_taken s walking _ _ _ _
  have hfinished : [Event.finished].filterMap Event.started? = [] := rfl
  refine ⟨handle.location, records, hleaves, ?_, ?_⟩
  · -- the end of the run, which is told behind its entries, starts none
    rw [hnames, startedNames, hevents, List.filterMap_append, hstarted]
    simp [Except.isOk, Except.toBool, hfinished]
  · have hadded : report.filesAdded = report'.filesAdded := by
      cases hresult
      rfl
    have hlength := congrArg List.length hnames
    have hcount := filesAdded_of_addAll hrun
    rw [← started_eq_completed hrun, ← packedRun, hstarted] at hcount
    rw [List.length_map, List.length_map] at hlength
    rw [hadded, hcount, hlength, List.length_map]
    exact Nat.zero_add _

end Pack

namespace Console

/-- What is written is a document, which a reader takes for this value, and the end of its line. -/
def IsDocument (written : String) (value : Json.Value) : Prop :=
  ∃ document : Json, written = document.render ++ "\n" ∧ Json.read? document.render = some value

/-- The document of an outcome says whether it went well, and then has its data. -/
theorem exists_document (outcome : Except String Json) :
    ∃ value, IsDocument (Style.document outcome) value ∧
      (value.field? "status" = some (.text "success") ↔ ∃ data, outcome = .ok data) ∧
      ∀ data, outcome = .ok data → value.field? "data" = some data.value := by
  cases outcome with
  | ok data =>
    refine ⟨_, ⟨_, rfl, Json.read?_render _⟩, ?_, ?_⟩
    · rw [Json.field?_object]
      exact ⟨fun _ => ⟨data, rfl⟩, fun _ => rfl⟩
    · rintro _ ⟨⟩
      rw [Json.field?_object]
      rfl
  | error text =>
    have hstatus : ([("operation", Json.text "pack"), ("status", .text "error"),
        ("error", .text text)].lookup "status").map Json.value = some (.text "error") := rfl
    refine ⟨_, ⟨_, rfl, Json.read?_render _⟩, ?_, by simp⟩
    rw [Json.field?_object, hstatus]
    simp

theorem Output.empty_append (o : Output) : Output.empty.append o = o := by
  simp [Output.append, Output.empty]

variable {style : Style}

theorem reportOutput_of_json (h : style.json = true) (r : Report) (entries : List String) :
    style.reportOutput r entries = ⟨Style.document (.ok (Style.reportJson r entries)), ""⟩ :=
  if_pos h

theorem errorOutput_of_json (h : style.json = true) (d : Diagnosis) :
    style.errorOutput d = ⟨Style.document (.error d.oneLine), ""⟩ :=
  if_pos h

theorem errorOutput_of_plain (h : style.json = false) (d : Diagnosis) :
    style.errorOutput d =
      ⟨"", (if style.colors then colored red "ERROR:" else "ERROR:") ++ " " ++ d.full ++ "\n"⟩ :=
  if_neg (by simp [h])

theorem reportOutput_of_quiet (hjson : style.json = false) (hquiet : style.quiet = true)
    (r : Report) (entries : List String) : style.reportOutput r entries = .empty := by
  rw [Style.reportOutput, if_neg (by simp [hjson]), if_pos hquiet]

/-- A report is for the standard channel. -/
theorem stderr_reportOutput (style : Style) (r : Report) (entries : List String) :
    (style.reportOutput r entries).stderr = "" := by
  unfold Style.reportOutput
  split
  · rfl
  · split <;> rfl

theorem stderr_dryRunOutput (style : Style) (output : Path) (entries : List Entry) :
    (style.dryRunOutput output entries).output.stderr = "" := by
  unfold Style.dryRunOutput
  dsimp only
  repeat' split
  all_goals rfl

end Console

namespace Session

variable {a : Arguments} {fs : FileSystem}

/-- A call that does not panic fails and tells of it, lists, or packs. -/
theorem ofArguments_cases (hpanic : ∀ panic, outcome a fs ≠ .panicked panic)
    (around : Surroundings) :
    let s := a.settings fs.workingDirectory.toPath
    let style := styleOf a around.colors
    (∃ f, outcome a fs = .failed f ∧
      ofArguments a around fs = failed style s f (before a around fs) (filesAfter a fs)) ∨
    (∃ entries, outcome a fs = .done ∧ a.has .dryRun = true ∧
      style.addedSizes entries < UInt64.size ∧
      ofArguments a around fs = ⟨0, fun _ => (style.dryRunOutput s.output entries).output, fs⟩) ∨
    ∃ report, outcome a fs = .done ∧ a.has .dryRun = false ∧
      (Pack.packTree s fs).result = .ok report ∧
      ofArguments a around fs = ⟨0, fun taken => (before a around fs).append (style.reportOutput
        { report with duration := taken } (startedNames (Pack.packTree s fs).events)),
          (Pack.packTree s fs).fs⟩ := by
  cases houtcome : outcome a fs with
  | failed f => exact .inl ⟨f, rfl, ofArguments_of_failed houtcome around⟩
  | done =>
    obtain ⟨hfits, hresult⟩ := outcome_eq_done_iff.1 houtcome
    rcases exists_of_result_ok hresult with ⟨hdry, entries, hok⟩ | ⟨hdry, report, hok⟩
    · have hsizes := added_of_listed hdry hok around.colors ▸ hfits
      exact .inr (.inl ⟨entries, rfl, hdry, hsizes, ofArguments_of_listed hdry hok hfits around⟩)
    · exact .inr (.inr ⟨report, rfl, hdry, hok, ofArguments_of_packed hdry hok hfits around⟩)
  | panicked panic => exact absurd houtcome (hpanic panic)

theorem spun_of_silent {around : Surroundings} (h : (styleOf a around.colors).isSilent = true) :
    spun a around fs = "" := by
  unfold spun Surroundings.drawn
  simp only [h, if_true]
  repeat' split
  all_goals rfl

/-- Where JSON or silence is asked for, nothing is written before the end. -/
theorem before_of_silent (hpanic : ∀ panic, outcome a fs ≠ .panicked panic)
    {around : Surroundings} (h : (styleOf a around.colors).isSilent = true) :
    before a around fs = .empty := by
  have hentry (name : String) : (styleOf a around.colors).entryOutput name = .empty := if_pos h
  have hfits : added a fs < UInt64.size := by
    by_contra hlarge
    exact hpanic .additionOverflow (if_neg hlarge)
  rw [before, spun_of_silent h]
  cases hdry : a.has .dryRun with
  | true => rfl
  | false =>
    have hstdout : (progress a around.colors fs).stdout = "" := by
      apply String.toList_inj.1
      rw [(progress_eq hdry hfits around.colors).2.2]
      simp [hentry, Output.empty]
    rw [hstdout]
    rfl

/-- Data that lists the members of the archive at a path, in their order, and counts them. -/
def ListsArchive (data : Json.Value) (fs : FileSystem) (p : Path) : Prop :=
  ∃ l file records, fs.find p false = .ok (l, .file file) ∧
    file.content = Archive.image records ∧ file.records = some records ∧
    data.field? "entries" = some (.array (records.map fun record => .text record.member.name)) ∧
    data.field? "files_added" = some (.whole records.length)

/-- The data of a run that succeeds lists its archive. -/
theorem listsArchive_reportJson {s : Settings} {report : Report}
    (hok : (Pack.packTree s fs).result = .ok report) (taken : Duration) :
    ListsArchive (Style.reportJson { report with duration := taken }
      (startedNames (Pack.packTree s fs).events)).value (Pack.packTree s fs).fs s.output := by
  obtain ⟨l, records, ⟨file, hfind, hcontent, hrecords⟩, hnames, hadded⟩ :=
    Pack.archive_of_success hok
  refine ⟨l, file, records, hfind, hcontent, hrecords, ?_, ?_⟩
  · have hentries : (Json.array ((startedNames (Pack.packTree s fs).events).map .text)).value =
        .array (records.map fun record => .text record.member.name) := by
      rw [Json.value, Json.values_eq_map, ← hnames, List.map_map, List.map_map]
      rfl
    rw [Style.reportJson, Json.field?_object, ← hentries]
    rfl
  · rw [Style.reportJson, Json.field?_object, ← hadded]
    rfl

/-- Where JSON is asked for, all that is written is a document. -/
theorem written_of_json (hpanic : ∀ panic, outcome a fs ≠ .panicked panic)
    (hjson : a.has .json = true) (around : Surroundings) (taken : Duration) :
    let session := ofArguments a around fs
    let written := session.output taken
    written.stderr = "" ∧ ∃ value, IsDocument written.stdout value ∧
      (value.field? "status" = some (.text "success") ↔ outcome a fs = .done) ∧
      (outcome a fs = .done → a.has .dryRun = false → ∃ data, value.field? "data" = some data ∧
        ListsArchive data session.fs (a.settings fs.workingDirectory.toPath).output) := by
  have hstyle : (styleOf a around.colors).json = true := hjson
  have hsilent : (styleOf a around.colors).isSilent = true := by
    rw [Style.isSilent, hstyle, Bool.true_or]
  rcases ofArguments_cases hpanic around with ⟨f, houtcome, hsession⟩ |
    ⟨entries, houtcome, hdry, hsizes, hsession⟩ | ⟨report, houtcome, -, hok, hsession⟩
  · obtain ⟨value, hdocument, hstatus, -⟩ := exists_document (.error (Diagnosis.oneLine
      (.ofFailure f (a.settings fs.workingDirectory.toPath).output)))
    rw [hsession, houtcome, failed]
    dsimp only
    rw [before_of_silent hpanic hsilent, Output.empty_append, errorOutput_of_json hstyle]
    exact ⟨rfl, value, hdocument, by simpa using hstatus, by simp⟩
  · rw [Style.addedSizes, if_neg (by simp [hstyle])] at hsizes
    obtain ⟨value, hdocument, hstatus, -⟩ := exists_document (.ok (Style.dryRunJson
      (a.settings fs.workingDirectory.toPath).output entries (entries.map Entry.size).sum))
    rw [hsession, houtcome]
    dsimp only
    rw [Style.dryRunOutput_of_json hstyle hsizes]
    exact ⟨rfl, value, hdocument, by simpa using hstatus, by simp [hdry]⟩
  · obtain ⟨value, hdocument, hstatus, hdata⟩ := exists_document (.ok (Style.reportJson
      { report with duration := taken }
        (startedNames (Pack.packTree (a.settings fs.workingDirectory.toPath) fs).events)))
    rw [hsession, houtcome]
    dsimp only
    rw [before_of_silent hpanic hsilent, Output.empty_append, reportOutput_of_json hstyle]
    exact ⟨rfl, value, hdocument, by simpa using hstatus,
      fun _ _ => ⟨_, hdata _ rfl, listsArchive_reportJson hok taken⟩⟩

/-- Where JSON is not asked for, what a spinner draws, errors and nothing else are written to the
error channel, and quiet leaves nothing for the other one. -/
theorem written_of_plain (hpanic : ∀ panic, outcome a fs ≠ .panicked panic)
    (hjson : a.has .json = false) (around : Surroundings) (taken : Duration) :
    let written := (ofArguments a around fs).output taken
    (outcome a fs = .done → written.stderr = spun a around fs) ∧
    (∀ f, outcome a fs = .failed f → written.stderr = spun a around fs ++
      ((if around.colors then colored red "ERROR:" else "ERROR:") ++ " " ++
        (Diagnosis.ofFailure f (a.settings fs.workingDirectory.toPath).output).full ++ "\n")) ∧
    (a.has .quiet = true → written.stdout = "") := by
  have hstyle : (styleOf a around.colors).json = false := hjson
  have hquiet (h : a.has .quiet = true) : (styleOf a around.colors).isSilent = true := by
    rw [Style.isSilent, hstyle, Bool.false_or]
    exact h
  rcases ofArguments_cases hpanic around with ⟨f, houtcome, hsession⟩ |
    ⟨entries, houtcome, hdry, -, hsession⟩ | ⟨report, houtcome, -, -, hsession⟩
  · rw [hsession, houtcome, failed]
    dsimp only
    refine ⟨by simp, ?_, ?_⟩
    · rintro _ ⟨⟩
      rw [errorOutput_of_plain hstyle]
      rfl
    · intro h
      rw [before_of_silent hpanic (hquiet h), Output.empty_append, errorOutput_of_plain hstyle]
  · rw [hsession, houtcome]
    refine ⟨fun _ => ?_, by simp, ?_⟩
    · rw [stderr_dryRunOutput, spun, if_pos hdry]
    · intro h
      exact congrArg (Output.stdout ∘ Written.output) (Style.dryRunOutput_of_quiet hstyle h _ _)
  · rw [hsession, houtcome]
    refine ⟨?_, by simp, ?_⟩
    · intro _
      dsimp only
      rw [Output.append, stderr_reportOutput]
      exact String.append_empty
    · intro h
      dsimp only
      rw [before_of_silent hpanic (hquiet h), Output.empty_append, reportOutput_of_quiet hstyle h]
      rfl

/-- A call whose command line parses and that does not panic ends with the status 0 if what it was
to do has been done, and with 1 if not. With JSON all that it writes is one document on the standard
channel; the document says whether the status is 0, and that of a run lists the members of its
archive and counts them. Without JSON the error channel has what a spinner has drawn, if there is
one, and then the error, once, or nothing; and a quiet call writes nothing else. -/
theorem written_on_channels {words : List Word} {a : Arguments} {fs : FileSystem}
    (hparse : Arguments.parse words = .ok a) (hpanic : ∀ panic, outcome a fs ≠ .panicked panic)
    (around : Surroundings) (taken : Duration) :
    let s := a.settings fs.workingDirectory.toPath
    let session := run words around fs
    let written := session.output taken
    ((session.exitStatus = 0 ↔ outcome a fs = .done) ∧
      (session.exitStatus = 1 ↔ ∃ f, outcome a fs = .failed f)) ∧
    (a.has .json = true → written.stderr = "" ∧ ∃ value, IsDocument written.stdout value ∧
      (value.field? "status" = some (.text "success") ↔ session.exitStatus = 0) ∧
      (session.exitStatus = 0 → a.has .dryRun = false →
        ∃ data, value.field? "data" = some data ∧ ListsArchive data session.fs s.output)) ∧
    (a.has .json = false → (session.exitStatus = 0 → written.stderr = spun a around fs) ∧
      (∀ f, outcome a fs = .failed f → written.stderr = spun a around fs ++
        ((if around.colors then colored red "ERROR:" else "ERROR:") ++ " " ++
          (Diagnosis.ofFailure f s.output).full ++ "\n")) ∧
      (a.has .quiet = true ∨ a.has .dryRun = true ∨ around.draw? = none → spun a around fs = "") ∧
      (a.has .quiet = true → written.stdout = "")) := by
  intro s session written
  have hsession : session = ofArguments a around fs := by
    simp only [session, run, hparse]
  have hexit := exitStatus_iff a around fs
  rw [← hsession] at hexit
  refine ⟨hexit, ?_, ?_⟩
  · intro hjson
    have hdocument := written_of_json hpanic hjson around taken
    rwa [← hsession, ← hexit.1] at hdocument
  · intro hjson
    obtain ⟨hdone, hfailed, hquiet⟩ := written_of_plain hpanic hjson around taken
    rw [← hsession] at hdone hfailed hquiet
    refine ⟨fun hzero => hdone (hexit.1.1 hzero), hfailed, ?_, hquiet⟩
    rintro (hsilent | hdry | hnone)
    · exact spun_of_silent (Bool.or_eq_true_iff.2 (.inr hsilent))
    · exact if_pos hdry
    · exact spun_of_none hnone

def documentWords : List Word :=
  word "--json" :: plainWords

def documentArguments : Arguments :=
  { plainArguments with flags := [.json] }

theorem countedBytes_backslashTree :
    countedBytes (Pack.packTree Pack.interruptedSettings Pack.backslashTree).events = 1 := by
  have hwritten : (Pack.addFile Pack.interruptedSettings ⟨Pack.backslashTreeCreated,
      ⟨[.ofString "o.zip"], 1⟩, .ofLevel Pack.interruptedSettings.level⟩
        Pack.backslashEntry).written = [1] := by cbv
  have hwalk : Walk.ofSettings Pack.interruptedSettings =
      .ok ⟨⟨Pack.interruptedSettings, Walk.plainExclusions, []⟩, true, []⟩ := by cbv
  have hreset : Pack.resetOutput Pack.backslashTree Pack.interruptedSettings.output =
      .ok (Pack.backslashTree, false) := by cbv
  have hcreate : Pack.createOutput Pack.backslashTree Pack.interruptedSettings.output =
      .ok (Pack.backslashTreeCreated, ⟨[.ofString "o.zip"], 1⟩) := by cbv
  obtain ⟨w, hnext, hlast⟩ := Pack.next_backslashTree
  rw [Pack.countedBytes_packTree (by cbv) hwalk hreset hcreate hnext (.inr hlast), hwritten]
  rfl

theorem outcome_backslashTree {a : Arguments} (hdry : a.has .dryRun = false)
    (hsettings : a.settings Pack.backslashTree.workingDirectory.toPath =
      Pack.interruptedSettings) : outcome a Pack.backslashTree = .done := by
  obtain ⟨report, -, -, -, hok, -⟩ := Pack.packTree_backslashTree
  rw [outcome_eq_done_iff, added_of_pack hdry, result_of_pack hdry, hsettings,
    countedBytes_backslashTree, hok]
  exact ⟨by decide, rfl⟩

/-- The name with the backslash is read back from the document. -/
theorem written_on_channels_backslash :
    let session := run documentWords .plain Pack.backslashTree
    let written := session.output .zero
    session.exitStatus = 0 ∧ written.stderr = "" ∧
      ∃ value data, IsDocument written.stdout value ∧
        value.field? "status" = some (.text "success") ∧ value.field? "data" = some data ∧
        data.field? "entries" = some (.array [.text "a\\b.txt"]) ∧
        data.field? "files_added" = some (.whole 1) := by
  have hparse : Arguments.parse documentWords = .ok documentArguments := by cbv
  have hsettings : documentArguments.settings Pack.backslashTree.workingDirectory.toPath =
      Pack.interruptedSettings := by cbv
  obtain ⟨report, l, file, record, hok, hfind, hrecords, hname⟩ := Pack.packTree_backslashTree
  have houtcome : outcome documentArguments Pack.backslashTree = .done :=
    outcome_backslashTree (by decide) hsettings
  have hpanic : ∀ panic, outcome documentArguments Pack.backslashTree ≠ .panicked panic := by
    simp [houtcome]
  obtain ⟨⟨hzero, -⟩, hjson, -⟩ := written_on_channels hparse hpanic .plain .zero
  have hexit := hzero.2 houtcome
  obtain ⟨hstderr, value, hdocument, hstatus, hlists⟩ := hjson (by decide)
  obtain ⟨data, hdata, l', file', records, hfind', -, hrecords', hentries, hadded⟩ :=
    hlists hexit (by decide)
  have hfs : (run documentWords .plain Pack.backslashTree).fs =
      (Pack.packTree Pack.interruptedSettings Pack.backslashTree).fs := by
    have hfits := (outcome_eq_done_iff.1 houtcome).1
    rw [← hsettings] at hok ⊢
    simp only [run, hparse, ofArguments_of_packed (by decide) hok hfits]
  -- the archive that is listed is the one that the run leaves
  have hthere := FileSystem.find_true_of_ne_link hfind' (by simp [Node.kind])
  rw [hfs, hsettings, hfind] at hthere
  cases hthere
  cases hrecords.symm.trans hrecords'
  rw [List.map_singleton, hname] at hentries
  exact ⟨hexit, hstderr, value, data, hdocument, hstatus.2 hexit, hdata, hentries, hadded⟩

/-- On a terminal a run is accompanied by its spinner. -/
theorem spun_ne_empty {a : Arguments} (hdry : a.has .dryRun = false)
    (hsilent : (styleOf a true).isSilent = false) (fs : FileSystem) :
    spun a .terminal fs ≠ "" := by
  have hdrawn : spun a .terminal fs = Display.redraw (progress a true fs).ended := by
    rw [spun, if_neg (by simp [hdry])]
    exact if_neg (Bool.eq_false_iff.1 hsilent)
  rw [hdrawn, Display.redraw, Progress.ended, List.map_append]
  intro hempty
  have hlast := congrArg String.toList hempty
  simp [Display.drawn] at hlast

/-- A run that succeeds on a terminal has written something to the error channel. -/
theorem spinner_on_error_channel :
    let session := run plainWords .terminal Pack.backslashTree
    session.exitStatus = 0 ∧ (session.output .zero).stderr ≠ "" := by
  have hparse : Arguments.parse plainWords = .ok plainArguments := by cbv
  have hsettings : plainArguments.settings Pack.backslashTree.workingDirectory.toPath =
      Pack.interruptedSettings := by cbv
  have houtcome : outcome plainArguments Pack.backslashTree = .done :=
    outcome_backslashTree (by decide) hsettings
  have hpanic : ∀ panic, outcome plainArguments Pack.backslashTree ≠ .panicked panic := by
    simp [houtcome]
  simp only [run, hparse]
  refine ⟨(exitStatus_iff _ .terminal _).1.2 houtcome, ?_⟩
  rw [(written_of_plain hpanic (by decide) .terminal .zero).1 houtcome]
  exact spun_ne_empty (by decide) (by decide) _

end Session

end TreeArchive
