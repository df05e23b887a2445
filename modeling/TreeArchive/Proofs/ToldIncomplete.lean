import TreeArchive.Proofs.PlacedArguments
import TreeArchive.Proofs.SessionOutcome

/-!
When an error says that the archive is incomplete. The sentence is chosen by the kind of the failure
alone, and the same kinds come from a run that has created its output, from the checks before it and
from a listing. So it is true of a run that packs and has passed its checks, and false of every
other one.
-/
namespace TreeArchive

open CommandLine Console FileSystem

namespace Console.Diagnosis

def incompleteText (shown : String) : String :=
  "The archive at '" ++ shown ++ "' is incomplete."

/-- The message ends with the sentence that the archive at a path is incomplete. -/
def TellsIncomplete (d : Diagnosis) (shown : String) : Prop :=
  (incompleteText shown).toList <:+ d.message.toList

variable {shown : String} {f : Failure} {output : Path}

theorem toList_incompleteText (shown : String) : (incompleteText shown).toList =
    "The archive at '".toList ++ shown.toList ++ "' is incomplete.".toList := by
  change ("The archive at '" ++ shown ++ "' is incomplete.").toList = _
  rw [String.toList_append, String.toList_append]

theorem toList_hinted (message hint : String) :
    (hinted message hint).message.toList =
      message.toList ++ "\nHINT: ".toList ++ hint.toList := by
  change (message ++ "\nHINT: " ++ hint).toList = _
  rw [String.toList_append, String.toList_append]

theorem suffix_incompleteText (shown : String) :
    "te.".toList <:+ (incompleteText shown).toList := by
  have hend : "' is incomplete.".toList = "' is incomple".toList ++ "te.".toList := by decide
  rw [toList_incompleteText, hend, ← List.append_assoc]
  exact List.suffix_append _ _

/-- Whatever a message ends with agrees with the end of the sentence. -/
theorem TellsIncomplete.agrees {d : Diagnosis} {last : List Char} (h : d.TellsIncomplete shown)
    (hlast : last <:+ d.message.toList) : "te.".toList <:+ last ∨ last <:+ "te.".toList :=
  List.suffix_or_suffix_of_suffix ((suffix_incompleteText shown).trans h) hlast

theorem not_tellsIncomplete_quoted {d : Diagnosis} (front : String)
    (h : d.message = front ++ "'") : ¬d.TellsIncomplete shown := by
  intro htold
  have hquote : ['\''] <:+ d.message.toList := by
    rw [h, String.toList_append]
    exact List.suffix_append _ _
  exact absurd (htold.agrees hquote) (by decide)

theorem suffix_message_hinted (message hint : String) :
    hint.toList <:+ (hinted message hint).message.toList := by
  rw [toList_hinted]
  exact List.suffix_append _ _

theorem tellsIncomplete_hinted {message hint : String} (lead : String)
    (h : hint.toList = lead.toList ++ (incompleteText shown).toList) :
    (hinted message hint).TellsIncomplete shown := by
  rw [TellsIncomplete, toList_hinted, h, ← List.append_assoc]
  exact List.suffix_append _ _

/-- The sentence behind another one. -/
theorem tellsIncomplete_behind (message lead : String) (shown : String) :
    (hinted message (lead ++ "The archive at '" ++ shown ++ "' is incomplete.")).TellsIncomplete
      shown := by
  apply tellsIncomplete_hinted lead
  rw [toList_incompleteText]
  simp only [String.toList_append, List.append_assoc]

theorem tellsIncomplete_walk (path : Path) (e : IoError) (output : Path) :
    (ofFailure (.walk path e) output).TellsIncomplete output.display :=
  tellsIncomplete_behind _ "Check permissions and broken symlinks. " output.display

theorem tellsIncomplete_unreadable (path : Path) (e : IoError) (output : Path) :
    (ofFailure (.unreadable path e) output).TellsIncomplete output.display :=
  tellsIncomplete_behind _
    "The file may have been removed or locked during packaging. " output.display

/-- The sentence stands in the messages of two kinds of failure and in no other. -/
theorem exists_tellsIncomplete_iff (f : Failure) (output : Path) :
    (∃ shown, (ofFailure f output).TellsIncomplete shown) ↔
      (∃ path e, f = .walk path e) ∨ ∃ path e, f = .unreadable path e := by
  constructor
  · rintro ⟨shown, htold⟩
    cases f with
    | walk path e => exact .inl ⟨path, e, rfl⟩
    | unreadable path e => exact .inr ⟨path, e, rfl⟩
    | sourceNotFound | sourceNotDirectory | sourceOutsideRoot | invalidPattern | outputIsDirectory
    | removeOutput | outputExists =>
      -- the hint ends with other letters
      exact absurd (htold.agrees (suffix_message_hinted _ _)) (by decide)
    | _ =>
      exact absurd htold
        (not_tellsIncomplete_quoted ("Error packaging into '" ++ output.display) rfl)
  · rintro (⟨path, e, rfl⟩ | ⟨path, e, rfl⟩)
    · exact ⟨_, tellsIncomplete_walk path e output⟩
    · exact ⟨_, tellsIncomplete_unreadable path e output⟩

end Console.Diagnosis

/-- The path leads to a file that has been made between two states of the file system: its number
had not been given away before. -/
def FileSystem.MadeSince (fs fs' : FileSystem) (p : Path) : Prop :=
  ∃ l data, fs'.find p false = .ok (l, .file data) ∧ fs.nextId ≤ data.id ∧ data.id < fs'.nextId

theorem FileSystem.nextId_insert? {fs fs' : FileSystem} {l : Location} {node : Node}
    (h : fs.insert? l node = some fs') : fs'.nextId = fs.nextId := by
  unfold insert? at h
  split at h
  · cases h
    rfl
  · cases h

theorem FileSystem.not_madeSince_self (fs : FileSystem) (p : Path) : ¬fs.MadeSince fs p := by
  rintro ⟨l, data, -, hfrom, hto⟩
  omega

namespace Pack

variable {s : Settings} {fs fs₀ fs₁ : FileSystem} {w : Walk} {replaced : Bool} {handle : Handle}

section Quiet

variable {σ : Type} {source : Source σ} {P : σ → Prop} {state : σ} {output : Path}

theorem nextId_addFile (s : Settings) (run : Run) (entry : Entry) :
    (addFile s run entry).run.fs.nextId = run.fs.nextId := by
  unfold addFile
  dsimp only
  repeat' split
  all_goals rfl

/-- Once the output is created, a run gives away no number of a file. -/
theorem nextId_addAll (hquiet : source.Quiet P) (s : Settings) (limit : Nat) (hstate : P state)
    (run : Run) (report : Report) :
    (addAll s source limit state run report).1.fs.nextId = run.fs.nextId := by
  have hsame {fs fs' : FileSystem} {state : σ} {pulled : Option (Except Failure Entry × σ)}
      (hstate : P state) (hpull : source.pull fs state = (fs', pulled)) : fs' = fs := by
    rw [← (hquiet fs state hstate).1, hpull]
  fun_induction addAll s source limit state run report with
  | case1 => rfl
  | case2 limit state run report fs hpull => rw [hsame hstate hpull]
  | case3 limit state run report fs f state' hpull => rw [hsame hstate hpull]
  | case4 limit state run report fs entry state' hpull added events f hresult =>
    obtain rfl := hsame hstate hpull
    exact nextId_addFile s run entry
  | case5 limit state run report fs entry state' hpull added events read hresult run' more result
      hrest ih =>
    have hnext : P state' := (hquiet run.fs state hstate).2 _ _ (by rw [hpull])
    obtain rfl := hsame hstate hpull
    rw [hrest] at ih
    exact (ih hnext).trans (nextId_addFile s run entry)

theorem nextId_packFrom (hquiet : source.Quiet P) (hstate : P state)
    (hreset : resetOutput fs output = .ok (fs₀, replaced))
    (hcreate : createOutput fs₀ output = .ok (fs₁, handle)) :
    (packFrom s output source state fs).fs.nextId = fs₁.nextId := by
  obtain ⟨hfs, -⟩ := packFrom_created s source state hreset hcreate
  rw [hfs]
  exact nextId_addAll hquiet s _ hstate _ _

end Quiet

theorem nextId_resetOutput {output : Path} (h : resetOutput fs output = .ok (fs₀, replaced)) :
    fs₀.nextId = fs.nextId := by
  rcases resetOutput_cases fs output with ⟨f, herror, -⟩ | ⟨l, node, -, -, hreset⟩ | ⟨e, -, hreset⟩
  · rw [h] at herror
    cases herror
  · rw [h] at hreset
    cases hreset
    rfl
  · rw [h] at hreset
    cases hreset
    rfl

/-- A new file has the next number. -/
theorem nextId_createOutput {output : Path} (h : createOutput fs₀ output = .ok (fs₁, handle)) :
    handle.id = fs₀.nextId ∧ fs₁.nextId = fs₀.nextId + 1 := by
  obtain ⟨directory, name, grown, -, hhandle, hinsert, hfs⟩ :=
    exists_insert?_of_createNew (createNew_of_createOutput h)
  rw [hhandle, hfs]
  exact ⟨rfl, congrArg (· + 1) (nextId_insert? hinsert)⟩

/-- A run that gets as far as to create its output has made the file at its path. -/
theorem madeSince_of_created (hvalid : s.validate fs = .ok ()) (hwalk : Walk.ofSettings s = .ok w)
    (h : Created fs s.output fs₀ replaced fs₁ handle) :
    fs.MadeSince (packTree s fs).fs s.output := by
  rw [packTree_eq hvalid hwalk]
  obtain ⟨data, hid, hfind⟩ :=
    find_created_of_quiet (s := s) quiet_walking trivial h.reset h.create false
  obtain ⟨hhandle, hnext⟩ := nextId_createOutput h.create
  have hreset := nextId_resetOutput h.reset
  have hend : (packFrom s s.output walking (w.skip s.output) fs).fs.nextId = fs₁.nextId :=
    nextId_packFrom quiet_walking trivial h.reset h.create
  exact ⟨_, data, hfind, by omega, by omega⟩

/-- What cannot be read is met only by a run that has created its output. -/
theorem madeSince_of_unread {f : Failure} (hvalid : s.validate fs = .ok ())
    (hresult : (packTree s fs).result = .error f)
    (hread : (∃ path e, f = .walk path e) ∨ ∃ path e, f = .unreadable path e) :
    fs.MadeSince (packTree s fs).fs s.output := by
  have hlate : f.precedesOutput = false ∧ ∀ e, f ≠ .createOutput s.output e := by
    rcases hread with ⟨path, e, rfl⟩ | ⟨path, e, rfl⟩
    · exact ⟨rfl, by simp⟩
    · exact ⟨rfl, by simp⟩
  rcases packTree_cases s fs with ⟨g, hpacked, hearly, -⟩ | ⟨l, -, hpacked⟩ |
    ⟨w, fs₀, replaced, fs₁, handle, -, hwalk, hcreated⟩
  · rw [hpacked] at hresult
    obtain rfl := Except.error.inj hresult
    rcases hearly with hearly | hearly
    · rw [hvalid] at hearly
      cases hearly
    · rw [hlate.1] at hearly
      cases hearly
  · rw [hpacked] at hresult
    exact absurd (Except.error.inj hresult).symm (hlate.2 _)
  · exact madeSince_of_created hvalid hwalk hcreated

section Counted

variable {entry : Entry} {w' : Walk} {run : Run} {report : Report}

/-- A run that comes no further than its first entry counts the bytes of that one. -/
theorem countedBytes_addAll (hnext : w.next run.fs = some (.ok entry, w'))
    (hend : (∃ f, (addFile s run entry).result = .error f) ∨ ∀ fs, w'.next fs = none)
    (limit : Nat) : countedBytes (addAll s walking (limit + 1) w run report).2.1 =
      (addFile s run entry).written.sum := by
  cases hresult : (addFile s run entry).result with
  | error f =>
    rw [addAll_failed hnext hresult]
    exact countedBytes_bytes _
  | ok read =>
    have hlast : ∀ fs, w'.next fs = none := by simpa [hresult] using hend
    rw [addAll_added hnext hresult]
    dsimp only
    rw [addAll_of_exhausted hlast, countedBytes_append]
    exact countedBytes_bytes _

theorem countedBytes_packTree (hvalid : s.validate fs = .ok ()) (hwalk : Walk.ofSettings s = .ok w)
    (hreset : resetOutput fs s.output = .ok (fs₀, replaced))
    (hcreate : createOutput fs₀ s.output = .ok (fs₁, handle))
    (hnext : (w.skip s.output).next fs₁ = some (.ok entry, w'))
    (hend : (∃ f, (addFile s ⟨fs₁, handle, .ofLevel s.level⟩ entry).result = .error f) ∨
      ∀ fs, w'.next fs = none) :
    countedBytes (packTree s fs).events =
      (addFile s ⟨fs₁, handle, .ofLevel s.level⟩ entry).written.sum := by
  have hrun : countedBytes (packedRun s s.output walking (w.skip s.output) fs₁ handle
      replaced).2.1 = (addFile s ⟨fs₁, handle, .ofLevel s.level⟩ entry).written.sum :=
    countedBytes_addAll hnext hend _
  have hfinished (ok : Bool) : countedBytes (if ok then [.finished] else []) = 0 := by
    cases ok <;> rfl
  rw [packTree_eq hvalid hwalk, events_of_created s walking _ hreset hcreate]
  rw [countedBytes_append, hrun, hfinished, Nat.add_zero]

end Counted

end Pack

namespace Session

/-- A call that fails tells that an archive is incomplete exactly if something could not be read.
The archive it names is then the output's, and a file has been made there exactly if the call was
to pack and its settings had passed every check. In any other case nothing has been changed at all.
-/
theorem told_incomplete_iff_made {words : List Word} {a : Arguments} {fs : FileSystem} {f : Failure}
    (hparse : Arguments.parse words = .ok a) (hfail : outcome a fs = .failed f)
    (around : Surroundings) :
    let s := a.settings fs.workingDirectory.toPath
    let session := run words around fs
    let told := Diagnosis.ofFailure f s.output
    (session.exitStatus = 1 ∧ ∃ before : Output, ∀ taken,
      session.output taken = before.append ((styleOf a around.colors).errorOutput told)) ∧
    ((∃ shown, told.TellsIncomplete shown) ↔
      (∃ path e, f = .walk path e) ∨ ∃ path e, f = .unreadable path e) ∧
    ((∃ shown, told.TellsIncomplete shown) → told.TellsIncomplete s.output.display ∧
      (fs.MadeSince session.fs s.output ↔ a.has .dryRun = false ∧ s.validate fs = .ok ()) ∧
      (¬fs.MadeSince session.fs s.output → session.fs = fs)) := by
  intro s session told
  have hsession : session = ofArguments a around fs := by
    simp only [session, run, hparse]
  have hfailed := ofArguments_of_failed hfail around
  have hfs : session.fs = filesAfter a fs := by
    rw [hsession, hfailed]
    rfl
  refine ⟨?_, Diagnosis.exists_tellsIncomplete_iff f s.output, ?_⟩
  · rw [hsession, hfailed]
    exact ⟨rfl, _, fun _ => rfl⟩
  · intro htold
    have hread := (Diagnosis.exists_tellsIncomplete_iff f s.output).1 htold
    have hdisplay : told.TellsIncomplete s.output.display := by
      rcases hread with ⟨path, e, rfl⟩ | ⟨path, e, rfl⟩
      · exact Diagnosis.tellsIncomplete_walk path e s.output
      · exact Diagnosis.tellsIncomplete_unreadable path e s.output
    refine ⟨hdisplay, ?_⟩
    rw [hfs]
    unfold filesAfter
    cases hdry : a.has .dryRun with
    | true =>
      -- a listing leaves everything as it is
      have hnone := not_madeSince_self fs s.output
      simp [hnone]
    | false =>
      have hresult : (Pack.packTree s fs).result = .error f := by
        have hresult := (outcome_eq_failed_iff.1 hfail).2
        rwa [result_of_pack hdry, map_eq_error] at hresult
      cases hvalid : s.validate fs with
      | error g =>
        have hnone := not_madeSince_self fs s.output
        have hpacked := Pack.packTree_of_validate_error hvalid
        simp [s, hpacked, hnone]
      | ok u =>
        have hmade := Pack.madeSince_of_unread hvalid hresult hread
        simp [s, hmade]

/-- To pack `/pkg` into `/o.zip`. -/
def plainWords : List Word :=
  [word "-r/pkg", word "-o", word "/o.zip"]

def plainArguments : Arguments :=
  { Arguments.empty with root := some (.ofString "/pkg"), output := some (.ofString "/o.zip") }

/-- A run that comes to a file that it may not read has made the archive that it tells of. -/
theorem told_incomplete_iff_made_locked :
    (run plainWords .plain Pack.lockedTree).exitStatus = 1 ∧
    (Diagnosis.ofFailure (.unreadable (.ofString "/pkg/a.txt") (.system .permissionDenied))
      (.ofString "/o.zip")).TellsIncomplete (Path.ofString "/o.zip").display ∧
    Pack.lockedTree.MadeSince (run plainWords .plain Pack.lockedTree).fs (.ofString "/o.zip") := by
  have hparse : Arguments.parse plainWords = .ok plainArguments := by cbv
  have hsettings : plainArguments.settings Pack.lockedTree.workingDirectory.toPath =
      Pack.staleSettings := by cbv
  have hvalid : Pack.staleSettings.validate Pack.lockedTree = .ok () := by cbv
  have hyields : Pack.staleRules.YieldsOnly Pack.lockedTreeCreated (.ok Pack.staleEntry) :=
    ⟨rfl, by cbv, ⟨.ofString "/pkg/a.txt", .file, false⟩, by cbv, by decide, by cbv, by cbv⟩
  have hopen : Pack.lockedTreeCreated.openFile (.ofString "/pkg/a.txt") =
      .error (.system .permissionDenied) := by cbv
  have hresult : (Pack.packTree Pack.staleSettings Pack.lockedTree).result =
      .error (.unreadable (.ofString "/pkg/a.txt") (.system .permissionDenied)) :=
    Pack.packTree_of_unopened hvalid Pack.ofSettings_staleSettings Pack.created_lockedTree hyields
      hopen
  have hcounted : countedBytes (Pack.packTree Pack.staleSettings Pack.lockedTree).events = 0 := by
    obtain ⟨w, hnext⟩ := hyields.exists_next
    have hadded : Pack.addFile Pack.staleSettings
        ⟨Pack.lockedTreeCreated, ⟨Pack.staleLocation, 1⟩, .ofLevel Pack.staleSettings.level⟩
          Pack.staleEntry = ⟨_, [], _⟩ :=
      Pack.addFile_unopened hopen
    rw [Pack.countedBytes_packTree hvalid Pack.ofSettings_staleSettings
      Pack.created_lockedTree.reset Pack.created_lockedTree.create hnext
      (.inl ⟨_, congrArg Pack.Added.result hadded⟩), hadded]
    rfl
  have hfail : outcome plainArguments Pack.lockedTree =
      .failed (.unreadable (.ofString "/pkg/a.txt") (.system .permissionDenied)) := by
    rw [outcome_eq_failed_iff, added_of_pack (by decide), result_of_pack (by decide), map_eq_error,
      hsettings]
    exact ⟨hcounted ▸ (by decide), hresult⟩
  obtain ⟨⟨hexit, -⟩, -, htold⟩ := told_incomplete_iff_made hparse hfail .plain
  rw [hsettings] at htold
  obtain ⟨hdisplay, hmade, -⟩ := htold ⟨_, Diagnosis.tellsIncomplete_unreadable _ _ _⟩
  exact ⟨hexit, hdisplay, hmade.2 ⟨by decide, hvalid⟩⟩

/-- An older archive beside a file, seen from the directory of both. -/
def olderTree : FileSystem :=
  { FileSystem.ofEntries 2 [(.ofString "pkg", .directory 0o755
      [(.ofString "f", .ofBytes 0 [0x66]), (.ofString "pkg.zip", .ofBytes 1 [0x6B])])] (by cbv) with
    workingDirectory := [.ofString "pkg"] }

/-- The source would be below the file. -/
def belowFile (listing : Bool) : Arguments :=
  { Arguments.empty with
    source := some (.ofString "f/x")
    flags := if listing then [.dryRun] else [] }

def toldOfOlder : String :=
  "ERROR: Cannot walk '/pkg/f/x': Not a directory (os error 20)\n" ++
    "HINT: Check permissions and broken symlinks. The archive at '/pkg/pkg.zip' is incomplete.\n"

set_option maxRecDepth 4000 in
theorem errorOutput_belowFile (style : Style) (hjson : style.json = false)
    (hcolors : style.colors = false) :
    (style.errorOutput (.ofFailure (.walk (.ofString "/pkg/f/x") (.system .notDirectory))
      (.ofString "/pkg/pkg.zip"))).stderr = toldOfOlder := by
  obtain ⟨json, verbose, quiet, colors⟩ := style
  obtain rfl : json = false := hjson
  obtain rfl : colors = false := hcolors
  cbv

theorem told_belowFile (listing : Bool) :
    let session := ofArguments (belowFile listing) .plain olderTree
    session.exitStatus = 1 ∧ session.fs = olderTree ∧
      ∀ taken, (session.output taken).stderr = toldOfOlder := by
  have hvalid : ((belowFile listing).settings olderTree.workingDirectory.toPath).validate
      olderTree = .error (.walk (.ofString "/pkg/f/x") (.system .notDirectory)) := by
    cases listing <;> cbv
  have houtput : ((belowFile listing).settings olderTree.workingDirectory.toPath).output =
      .ofString "/pkg/pkg.zip" := by
    cases listing <;> cbv
  have hpacked := Pack.packTree_of_validate_error hvalid
  have hlisted := Pack.dryRun_of_validate_error hvalid
  have hfail : outcome (belowFile listing) olderTree =
      .failed (.walk (.ofString "/pkg/f/x") (.system .notDirectory)) := by
    cases listing with
    | true => exact outcome_of_unlisted rfl hlisted
    | false =>
      rw [outcome_eq_failed_iff, added_of_pack rfl, result_of_pack rfl, hpacked]
      exact ⟨by decide, rfl⟩
  have hfiles : filesAfter (belowFile listing) olderTree = olderTree := by
    unfold filesAfter
    rw [hpacked]
    split <;> rfl
  rw [ofArguments_of_failed hfail, hfiles]
  refine ⟨rfl, rfl, ?_⟩
  intro taken
  have herror := errorOutput_belowFile (styleOf (belowFile listing) false)
    (by cases listing <;> decide) rfl
  have hspun : spun (belowFile listing) .plain olderTree = "" := spun_of_none rfl
  rw [← houtput] at herror
  exact (congrArg₂ (· ++ ·) hspun herror).trans String.empty_append

/-- Neither the run nor the listing gets past the checks, and both tell that the archive from before
is incomplete. -/
theorem untouched_archive_told_incomplete :
    let session := run [word "f/x"] .plain olderTree
    let listing := run [word "--dry-run", word "f/x"] .plain olderTree
    (session.exitStatus = 1 ∧ session.fs = olderTree ∧
      ∀ taken, (session.output taken).stderr = toldOfOlder) ∧
    (listing.exitStatus = 1 ∧ listing.fs = olderTree ∧
      ∀ taken, (listing.output taken).stderr = toldOfOlder) ∧
    ¬olderTree.MadeSince olderTree (.ofString "/pkg/pkg.zip") := by
  have hparse : Arguments.parse [word "f/x"] = .ok (belowFile false) := by cbv
  have hparse' : Arguments.parse [word "--dry-run", word "f/x"] = .ok (belowFile true) := by cbv
  simp only [run, hparse, hparse']
  exact ⟨told_belowFile false, told_belowFile true, not_madeSince_self _ _⟩

end Session

end TreeArchive
