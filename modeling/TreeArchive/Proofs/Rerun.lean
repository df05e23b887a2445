import TreeArchive.Proofs.Outline
import TreeArchive.Proofs.OutputSpot
import TreeArchive.Proofs.Stages
import TreeArchive.Proofs.Taken

/-!
What stood at the output before a run has no part in its outcome. Once two runs have created their
outputs, their file systems differ in nothing that a run can see, and each entry keeps them so.
-/
namespace TreeArchive

open FileSystem

namespace Node

/-- All that shows of a node to who opens or lists it: of a file everything but its identity. -/
def face : Node → Node
  | .file data => .file { data with id := 0 }
  | node => node.shell

@[simp] theorem face_shell (node : Node) : node.shell.face = node.face := by
  cases node <;> rfl

@[simp] theorem outline_face (node : Node) : node.face.outline = node.outline := by
  cases node <;> rfl

theorem file_of_face {node : Node} {data : FileData} (h : node.face = (file data).face) :
    ∃ data', node = .file data' ∧ data'.mode = data.mode ∧ data'.content = data.content ∧
      data'.records = data.records := by
  cases node with
  | file data' =>
    obtain ⟨-, hmode, hcontent, hrecords⟩ := FileData.mk.inj (Node.file.inj h)
    exact ⟨data', rfl, hmode, hcontent, hrecords⟩
  | directory mode nodes => cases h
  | link target => cases h
  | pipe => cases h

end Node

namespace FileSystem

/-- Two file systems that differ in the identities of files and in the order of entries only. -/
structure Alike (fs fs' : FileSystem) : Prop where
  workingDirectory : fs'.workingDirectory = fs.workingDirectory
  face : ∀ l, (fs'.get? l).map Node.face = (fs.get? l).map Node.face

variable {fs fs' : FileSystem} {l : Location} {p : Path} {handle handle' : Handle}

theorem Alike.sameOutline (h : fs.Alike fs') : fs.SameOutline fs' := by
  refine ⟨h.workingDirectory, ?_⟩
  intro l
  have houtline := congrArg (Option.map Node.outline) (h.face l)
  simpa [Option.map_map, Function.comp_def] using houtline

/-- A path fails in the same way in both file systems, or leads to nodes that look alike. -/
theorem Alike.find_cases (h : fs.Alike fs') (p : Path) (follow : Bool) :
    (∃ e, fs.find p follow = .error e ∧ fs'.find p follow = .error e) ∨
    ∃ l node node', fs.find p follow = .ok (l, node) ∧ fs'.find p follow = .ok (l, node') ∧
      node'.face = node.face := by
  refine (h.sameOutline.find_cases p follow).imp_right ?_
  rintro ⟨l, node, node', hfind, hfind', -⟩
  have hface := h.face l
  rw [get?_of_find hfind, get?_of_find hfind'] at hface
  exact ⟨l, node, node', hfind, hfind', Option.some.inj hface⟩

theorem openFile_of_alike (h : fs.Alike fs') (p : Path) : fs'.openFile p = fs.openFile p := by
  unfold openFile
  rcases h.find_cases p true with ⟨e, hfind, hfind'⟩ | ⟨l, node, node', hfind, hfind', hface⟩
  · rw [hfind, hfind']
  · rw [hfind, hfind']
    cases node with
    | file data =>
      obtain ⟨data', rfl, hmode, hcontent, -⟩ := Node.file_of_face hface
      simp only [bind, Except.bind, FileData.isReadable, hmode, hcontent]
      rfl
    | directory mode nodes =>
      cases node' with
      | directory mode' nodes' =>
        obtain ⟨rfl, -⟩ := Node.directory.inj hface
        rfl
      | file data => cases hface
      | link target => cases hface
      | pipe => cases hface
    | link target => cases node' <;> first | rfl | cases hface
    | pipe => cases node' <;> first | rfl | cases hface

theorem sameSizes_of_alike (h : fs.Alike fs') (r : Rules) : Walk.SameSizes r fs fs' := by
  intro names _ _ _ l data data' hfind hfind'
  have hface := h.face l
  rw [get?_of_find hfind, get?_of_find hfind'] at hface
  obtain ⟨found, heq, -, hcontent, -⟩ := Node.file_of_face (Option.some.inj hface)
  cases heq
  rw [hcontent]

/-- Where two file systems differ at a location only, and files that look alike stand there, they
are alike. -/
theorem SameElsewhere.alike {data data' : FileData} (h : fs.SameElsewhere fs' l)
    (hfile : fs.get? l = some (.file data)) (hfile' : fs'.get? l = some (.file data'))
    (hface : (Node.file data').face = (Node.file data).face) : fs.Alike fs' := by
  refine ⟨h.workingDirectory, ?_⟩
  intro other
  by_cases hother : other = l
  · rw [hother, hfile, hfile']
    exact congrArg some hface
  · have hshell := congrArg (Option.map Node.face)
      (h.shell_of_ne (ne_directory_of_file hfile) (ne_directory_of_file hfile') hother)
    simpa [Option.map_map, Function.comp_def] using hshell

/-- What is stored in both outputs keeps the file systems alike. -/
theorem Alike.store (h : fs.Alike fs') (hholds : fs.Holds handle) (hholds' : fs'.Holds handle')
    (hl : handle'.location = handle.location) (content : Content)
    (records : Option (List Archive.Record)) :
    (fs.store handle content records).Alike (fs'.store handle' content records) := by
  obtain ⟨hne, data, hfile, hid⟩ := hholds
  obtain ⟨hne', data', hfile', hid'⟩ := hholds'
  have hstore := get?_store hne hfile hid content records
  have hstore' := get?_store hne' hfile' hid' content records
  have hface := h.face handle.location
  rw [hfile, ← hl, hfile'] at hface
  obtain ⟨found, heq, hmode, -, -⟩ := Node.file_of_face (Option.some.inj hface)
  cases heq
  refine ⟨h.workingDirectory, ?_⟩
  intro other
  by_cases hother : other = handle.location
  · rw [hother, hstore, ← hl, hstore']
    simp only [Option.map_some, Node.face, hmode]
  · have hshell := (sameElsewhere_store fs handle content records).shell_of_ne
      (ne_directory_of_file hfile) (ne_directory_of_file hstore) hother
    rw [← hl] at hother
    have hshell' := (sameElsewhere_store fs' handle' content records).shell_of_ne
      (ne_directory_of_file hfile') (ne_directory_of_file hstore') hother
    have hmap := congrArg (Option.map Node.face) hshell
    have hmap' := congrArg (Option.map Node.face) hshell'
    simp only [Option.map_map, Function.comp_def, Node.face_shell] at hmap hmap'
    rw [hmap, hmap', h.face other]

end FileSystem

namespace Pack

/-- Two runs with the same archive so far, in file systems that are alike. -/
structure Abreast (run run' : Run) : Prop where
  alike : run.fs.Alike run'.fs
  writer : run'.writer = run.writer
  location : run'.output.location = run.output.location
  holds : run.fs.Holds run.output
  holds' : run'.fs.Holds run'.output

variable {s : Settings} {run run' : Run} {entry : Entry} {w : Walk}

/-- Both runs have started the same member, whatever becomes of it. -/
theorem Abreast.started (h : Abreast run run') (writer next : Archive.Writer) :
    Abreast { run.started writer with writer := next } { run'.started writer with writer := next }
      where
  alike := h.alike.store h.holds h.holds' h.location writer.visible none
  writer := rfl
  location := h.location
  holds := h.holds.store writer.visible none
  holds' := h.holds'.store writer.visible none

/-- An entry does the same in both runs, and leaves them abreast. -/
theorem Abreast.addFile (h : Abreast run run') (s : Settings) (entry : Entry) :
    Abreast (addFile s run entry).run (addFile s run' entry).run ∧
      (addFile s run' entry).written = (addFile s run entry).written ∧
      (addFile s run' entry).result = (addFile s run entry).result := by
  have hopen := openFile_of_alike h.alike (entry.relative.resolve s.root)
  cases hopened : run.fs.openFile (entry.relative.resolve s.root) with
  | error e =>
    rw [addFile_unopened hopened, addFile_unopened (hopen.trans hopened)]
    exact ⟨h, rfl, rfl⟩
  | ok opened =>
    cases hstart : run.writer.start (memberOf s entry opened.mode) with
    | error f =>
      have hstart' := h.writer ▸ hstart
      rw [addFile_refused hopened hstart, addFile_refused (hopen.trans hopened) hstart']
      exact ⟨h, rfl, rfl⟩
    | ok writer =>
      have hstart' := h.writer ▸ hstart
      -- the same header goes to both outputs, so the file that is read then is the same one too
      have hread : ((run'.started writer).fs.openFile (entry.relative.resolve s.root) >>=
          Opened.read) = ((run.started writer).fs.openFile (entry.relative.resolve s.root) >>=
            Opened.read) := by
        rw [openFile_of_alike (h.started writer writer).alike]
      cases hcontent : (run.started writer).fs.openFile (entry.relative.resolve s.root) >>=
          Opened.read with
      | error e =>
        rw [addFile_unread hopened hstart hcontent,
          addFile_unread (hopen.trans hopened) hstart' (hread.trans hcontent)]
        exact ⟨h.started writer writer, rfl, rfl⟩
      | ok content =>
        rcases hwrite : writer.write bufferSize content with ⟨written, f | next⟩
        · rw [addFile_outgrown hopened hstart hcontent hwrite,
            addFile_outgrown (hopen.trans hopened) hstart' (hread.trans hcontent) hwrite]
          exact ⟨h.started writer writer.abort, rfl, rfl⟩
        · rw [addFile_written hopened hstart hcontent hwrite,
            addFile_written (hopen.trans hopened) hstart' (hread.trans hcontent) hwrite]
          exact ⟨h.started writer next, rfl, rfl⟩

/-- The same report but for what it says of the output before the run. -/
def reportAs (replaced : Bool) (report : Report) : Report :=
  { report with replacedExisting := replaced }

/-- Two runs that start abreast pull the same items, do the same with each and end abreast. -/
theorem Abreast.addAll {limit limit' : Nat} {report : Report} (replaced : Bool)
    (h : Abreast run run') (hsorted : w.rules.settings.sorted = true) (hw : w.BelowSource)
    (hlimit : (w.items run.fs).length < limit) (hlimit' : (w.items run.fs).length < limit') :
    let added := addAll s walking limit w run report
    let added' := addAll s walking limit' w run' (reportAs replaced report)
    Abreast added.1 added'.1 ∧ added'.2.1 = added.2.1 ∧
      added'.2.2 = added.2.2.map (reportAs replaced) := by
  induction limit generalizing limit' w run run' report with
  | zero => omega
  | succ limit ih =>
    obtain ⟨limit', rfl⟩ : ∃ n, limit' = n + 1 := ⟨limit' - 1, by omega⟩
    have hnext := Walk.next_of_outline h.alike.sameOutline hsorted
      (sameSizes_of_alike h.alike w.rules) hw
    cases hpull : w.next run.fs with
    | none =>
      rw [addAll_exhausted hpull, addAll_exhausted (hnext.trans hpull)]
      exact ⟨h, rfl, rfl⟩
    | some pulled =>
      obtain ⟨f | entry, w'⟩ := pulled
      · rw [addAll_fault hpull, addAll_fault (hnext.trans hpull)]
        exact ⟨h, rfl, rfl⟩
      · obtain ⟨hadded, hwritten, hresult⟩ := h.addFile s entry
        cases hread : (Pack.addFile s run entry).result with
        | error f =>
          rw [addAll_failed hpull hread,
            addAll_failed (hnext.trans hpull) (hresult.trans hread), hwritten]
          exact ⟨hadded, rfl, rfl⟩
        | ok read =>
          obtain ⟨hw', hrules, -⟩ := Walk.sighted_of_next hw hpull
          -- one item less is left, in a file system where only the output has grown
          have hlength : (w'.items (Pack.addFile s run entry).run.fs).length + 1 =
              (w.items run.fs).length := by
            have hsame := congrArg List.length
              (Walk.items_of_bare_eq (addFile_frame s run entry).2.1 w')
            rw [List.length_map, List.length_map] at hsame
            rw [Walk.items_of_next hpull, List.length_cons, hsame]
          obtain ⟨habreast, hevents, hrest⟩ :=
            @ih _ _ w' limit' (count report entry read) hadded (by rwa [hrules]) hw' (by omega)
              (by omega)
          have hcount : count (reportAs replaced report) entry read =
              reportAs replaced (count report entry read) := rfl
          rw [addAll_added hpull hread, addAll_added (hnext.trans hpull) (hresult.trans hread),
            hwritten, hcount]
          exact ⟨habreast, by simp only [hevents]; rfl, hrest⟩

section Outcome

variable {fs fs' fs₀ fs₀' fs₁ fs₁' : FileSystem} {replaced replaced' : Bool}
  {handle handle' : Handle} {l : Location}

theorem Created.replaced_eq {output : Path} (h : Created fs output fs₀ replaced fs₁ handle) :
    replaced = (fs.find output false).isOk := by
  rcases resetOutput_cases fs output with ⟨f, hreset, -⟩ | ⟨l, node, hfind, -, hreset⟩ |
    ⟨e, hfind, hreset⟩ <;> rw [h.reset] at hreset <;> cases hreset <;> rw [hfind] <;> rfl

/-- Two runs start abreast if nothing but what stands at the output differs before. -/
theorem Created.abreast {output : Path} (h : Created fs output fs₀ replaced fs₁ handle)
    (h' : Created fs' output fs₀' replaced' fs₁' handle')
    (hsame : fs.SameElsewhere fs' handle.location) (writer : Archive.Writer) :
    Abreast ⟨fs₁, handle, writer⟩ ⟨fs₁', handle', writer⟩ := by
  have hnew := createNew_of_createOutput h.create
  have hnew' := createNew_of_createOutput h'.create
  obtain ⟨directory, name, hlocate, hhandle, -, -, -, hfile⟩ := createNew_eq_ok hnew
  obtain ⟨-, -, -, -, -, -, -, hfile'⟩ := createNew_eq_ok hnew'
  have hl : handle'.location = handle.location := by
    have hwithout : fs'.Without fs₀ handle.location :=
      ⟨hsame.symm.trans h.without.same, h.without.gone⟩
    obtain ⟨spot, hspot, hl⟩ := hwithout.locate_restored hlocate (by rw [hhandle])
    obtain ⟨spot', hspot', hl'⟩ := h'.spot
    obtain rfl := Except.ok.inj (hspot.symm.trans hspot')
    exact hl'.symm.trans hl
  have hsame' : fs₁.SameElsewhere fs₁' handle.location :=
    h.same.symm.trans (hsame.trans (hl ▸ h'.same))
  rw [hl] at hfile'
  exact ⟨hsame'.alike hfile hfile' rfl, rfl, hl, holds_createNew hnew, holds_createNew hnew'⟩

/-- An archive of the given records stands at a location, to which the output path leads. -/
def Leaves (packed : Packed) (output : Path) (l : Location) (records : List Archive.Record) :
    Prop :=
  ∃ data, packed.fs.find output false = .ok (l, .file data) ∧
    data.content = Archive.image records ∧ data.records = some records

/-- Two runs tell the same events, report the same but for what stood at the output before, and
leave the same archive at the same location, with members that each run has started itself. -/
structure SameOutcome (output : Path) (l : Location) (packed packed' : Packed) (replaced' : Bool) :
    Prop where
  events : packed'.events = packed.events
  result : packed'.result = packed.result.map (reportAs replaced')
  archive : ∃ records, Leaves packed output l records ∧ Leaves packed' output l records ∧
    records.map (fun record => record.member.name) <+:
      (packed.events.filterMap Event.started?).map RelativePath.text

/-- The members are the completed entries, and perhaps one more that was started. -/
theorem members_of_packedRun {σ : Type} (s : Settings) (output : Path) (source : Source σ)
    (state : σ) (fs₁ : FileSystem) (handle : Handle) (replaced : Bool) :
    let run := packedRun s output source state fs₁ handle replaced
    ∃ last, run.1.writer.completed.map (fun record => record.member.name) =
        (run.2.1.filterMap Event.completed?).map RelativePath.text ++ last ∧
      (run.2.1.filterMap Event.completed?).map RelativePath.text ++ last <+:
        (run.2.1.filterMap Event.started?).map RelativePath.text := by
  obtain ⟨last, -, hnames, hinit⟩ := addAll_names s source (source.limit fs₁ state) state
    ⟨fs₁, handle, .ofLevel s.level⟩ (Report.ofOutput output replaced)
  exact ⟨last, hnames, hinit⟩

/-- Behind a run that has created its output the names are those that there were then. -/
theorem packTree_of_created {w : Walk} (hvalid : s.validate fs = .ok ())
    (hwalk : Walk.ofSettings s = .ok w) (h : Created fs s.output fs₀ replaced fs₁ handle) :
    (packTree s fs).fs.bare = fs₁.bare ∧ ∀ follow, ∃ data, data.id = handle.id ∧
      (packTree s fs).fs.find s.output follow = .ok (handle.location, .file data) := by
  have htrue : (fun _ : Walk => True) (w.skip s.output) := trivial
  rw [packTree_eq hvalid hwalk]
  exact ⟨(packFrom_of_quiet quiet_walking htrue h.reset h.create).1,
    find_created_of_quiet quiet_walking htrue h.reset h.create⟩

theorem leaves_of_created {w : Walk} (hvalid : s.validate fs = .ok ())
    (hwalk : Walk.ofSettings s = .ok w) (h : Created fs s.output fs₀ replaced fs₁ handle) :
    Leaves (packTree s fs) s.output handle.location (packedRun s s.output walking
      (w.skip s.output) fs₁ handle replaced).1.writer.completed := by
  obtain ⟨data, hid, hfind⟩ := (packTree_of_created hvalid hwalk h).2 false
  have hfile := get?_of_find hfind
  obtain ⟨hfs, -⟩ := packFrom_created s walking (w.skip s.output) h.reset h.create
  rw [packTree_eq hvalid hwalk, hfs] at hfile
  exact ⟨data, hfind, file_of_close (addAll_output s walking _ _ _ _)
    (holds_createNew (createNew_of_createOutput h.create)).1 hfile hid⟩

/-- Runs that have created their outputs at one location, where alone their file systems may differ
before, end alike. -/
theorem sameOutcome_of_created {w : Walk} (hsorted : s.sorted = true)
    (hvalid : s.validate fs = .ok ()) (hvalid' : s.validate fs' = .ok ())
    (hwalk : Walk.ofSettings s = .ok w) (h : Created fs s.output fs₀ replaced fs₁ handle)
    (h' : Created fs' s.output fs₀' replaced' fs₁' handle')
    (hsame : fs.SameElsewhere fs' handle.location) :
    SameOutcome s.output handle.location (packTree s fs) (packTree s fs') replaced' := by
  have habreast := h.abreast h' hsame (.ofLevel s.level)
  have hbelow : (w.skip s.output).BelowSource := by
    obtain ⟨x, -, rfl⟩ := Walk.ofSettings_eq_ok.1 hwalk
    exact Walk.belowSource_of_fresh _
  have hrules : (w.skip s.output).rules.settings = s := by
    obtain ⟨x, -, rfl⟩ := Walk.ofSettings_eq_ok.1 hwalk
    rfl
  rw [← hrules] at hsorted
  -- no run ends before its walk, whatever it weighs on either file system
  have hitems : (w.skip s.output).items fs₁' = (w.skip s.output).items fs₁ :=
    Walk.items_of_outline habreast.alike.sameOutline hsorted (sameSizes_of_alike habreast.alike _)
      hbelow
  have hlimit := Nat.lt_succ_of_le (Walk.length_items_le fs₁ (w.skip s.output))
  have hlimit' := Nat.lt_succ_of_le (Walk.length_items_le fs₁' (w.skip s.output))
  rw [hitems] at hlimit'
  have hall : Abreast (packedRun s s.output walking (w.skip s.output) fs₁ handle replaced).1
        (packedRun s s.output walking (w.skip s.output) fs₁' handle' replaced').1 ∧
      (packedRun s s.output walking (w.skip s.output) fs₁' handle' replaced').2.1 =
        (packedRun s s.output walking (w.skip s.output) fs₁ handle replaced).2.1 ∧
      (packedRun s s.output walking (w.skip s.output) fs₁' handle' replaced').2.2 =
        (packedRun s s.output walking (w.skip s.output) fs₁ handle replaced).2.2.map
          (reportAs replaced') :=
    habreast.addAll replaced' hsorted hbelow hlimit hlimit'
  obtain ⟨⟨-, hwriter, -, -, -⟩, hevents, hresult⟩ := hall
  have hleaves := leaves_of_created hvalid hwalk h
  have hleaves' := leaves_of_created hvalid' hwalk h'
  rw [hwriter, habreast.location] at hleaves'
  have htold := events_of_created s walking (w.skip s.output) h.reset h.create
  have htold' := events_of_created s walking (w.skip s.output) h'.reset h'.create
  have hends := result_of_created s walking (w.skip s.output) h.reset h.create
  have hends' := result_of_created s walking (w.skip s.output) h'.reset h'.create
  rw [← packTree_eq hvalid hwalk] at htold hends
  rw [← packTree_eq hvalid' hwalk] at htold' hends'
  refine ⟨?_, ?_, _, hleaves, hleaves', ?_⟩
  · rw [htold, htold', hevents, hresult]
    cases (packedRun s s.output walking (w.skip s.output) fs₁ handle replaced).2.2 <;> rfl
  · rw [hends, hends', hresult, hwriter]
    cases (packedRun s s.output walking (w.skip s.output) fs₁ handle replaced).2.2 <;> rfl
  · rw [htold, List.filterMap_append, List.map_append]
    obtain ⟨last, hmembers, hinit⟩ := members_of_packedRun s s.output walking (w.skip s.output)
      fs₁ handle replaced
    rw [hmembers]
    exact hinit.trans (List.prefix_append ..)

/-- Where a file stands at the output, another can be created in its place. -/
theorem created_of_file {output : Path} {data : FileData}
    (hfind : fs.find output false = .ok (l, .file data)) :
    ∃ fs₁ handle, Created fs output (fs.erase l) true fs₁ handle ∧ handle.location = l := by
  have hkind : (Node.file data).kind ≠ .directory := by simp [Node.kind]
  rcases createNew_erase_cases hfind hkind with ⟨fs₁, handle, hcreate, hl⟩ | ⟨-, target, heq, -⟩
  · exact ⟨fs₁, handle,
      created_of_erase hfind hkind (resetOutput_of_find hfind hkind) hcreate hl, hl⟩
  · cases heq

/-- The settings of a run pass their checks once more behind it, unless the source was reached
through a link that the run has replaced. -/
theorem validate_packTree {w : Walk} (hvalid : s.validate fs = .ok ())
    (hwalk : Walk.ofSettings s = .ok w) (h : Created fs s.output fs₀ replaced fs₁ handle)
    (hpoints : ¬fs.PointsToDirectory handle.location) : s.validate (packTree s fs).fs = .ok () := by
  obtain ⟨hlevel, hx, hstarts, ⟨there, mode, nodes, hsource⟩, -⟩ := Settings.validate_eq_ok.1 hvalid
  have havoids := avoids_of_directory hsource rfl h.kind hpoints
  obtain ⟨node₁, hsource₁, hdir₁⟩ := h.find_directory hsource rfl havoids
  -- the entries that were written since have changed no name
  obtain ⟨hbare, houtput⟩ := packTree_of_created hvalid hwalk h
  obtain ⟨node, hsource', hsame⟩ := find_of_bare_eq hbare.symm hsource₁
  have hdir : node.kind = .directory := by
    rw [← Node.kind_bare, hsame, Node.kind_bare, hdir₁]
  obtain ⟨mode', nodes', rfl⟩ := Node.exists_of_kind_directory hdir
  obtain ⟨data, -, houtput⟩ := houtput true
  refine Settings.validate_eq_ok.2 ⟨hlevel, hx, hstarts, ⟨_, _, _, hsource'⟩, ?_⟩
  simp only [Settings.outputIsDirectory, houtput]

/-- A sorted run that comes to create its output ends in the same way, whatever else it finds in the
output's place. Unless a link there points to a directory, a second run comes to create its output
too; it says that it has replaced something, and leaves the same archive. -/
theorem outcome_independent_of_output {spot : Spot} (hsorted : s.sorted = true)
    (hspot : fs.locate s.output false = .ok spot) (hlate : ¬FailsEarly s fs) :
    (∀ fs', fs.SameElsewhere fs' spot.location → ¬FailsEarly s fs' →
      SameOutcome s.output spot.location (packTree s fs) (packTree s fs')
        (fs'.find s.output false).isOk) ∧
    (¬fs.PointsToDirectory spot.location →
      ¬FailsEarly s (packTree s fs).fs ∧ SameOutcome s.output spot.location (packTree s fs)
        (packTree s (packTree s fs).fs) true) := by
  obtain ⟨w, fs₀, replaced, fs₁, handle, hvalid, hwalk, hcreated⟩ := exists_created_of_late hlate
  obtain ⟨found, hfound, hl⟩ := hcreated.spot
  obtain rfl := Except.ok.inj (hspot.symm.trans hfound)
  rw [hl]
  constructor
  · intro fs' hsame hlate'
    obtain ⟨w', fs₀', replaced', fs₁', handle', hvalid', -, hcreated'⟩ :=
      exists_created_of_late hlate'
    rw [← hcreated'.replaced_eq]
    exact sameOutcome_of_created hsorted hvalid hvalid' hwalk hcreated hcreated' hsame
  · intro hpoints
    have hvalid' := validate_packTree hvalid hwalk hcreated hpoints
    obtain ⟨data, hfile⟩ := find_output_of_created hvalid hwalk hcreated
    obtain ⟨fs₁', handle', hcreated', -⟩ := created_of_file hfile
    exact ⟨not_failsEarly_of_created hvalid' hwalk hcreated', sameOutcome_of_created hsorted hvalid
      hvalid' hwalk hcreated hcreated' (sameElsewhere_of_created hvalid hwalk hcreated)⟩

end Outcome

/-- A tree with one file to pack, and something at the output that no run has made. -/
def staleTree : FileSystem :=
  .ofEntries 2
    [(.ofString "pkg", .directory 0o755 [(.ofString "a.txt", .ofBytes 0 [0x61])]),
    (.ofString "o.zip", .ofBytes 1 [0x6B])]
    (by cbv)

/-- The same with the output, which is empty yet. -/
def staleTreeCreated : FileSystem :=
  .ofEntries 3
    [(.ofString "o.zip", .ofBytes 2 []),
    (.ofString "pkg", .directory 0o755 [(.ofString "a.txt", .ofBytes 0 [0x61])])]
    (by cbv)

def staleSettings : Settings :=
  { Settings.forRoot (.ofString "/pkg") with output := .ofString "/o.zip" }

def staleLocation : Location :=
  [.ofString "o.zip"]

theorem ofSettings_staleSettings : Walk.ofSettings staleSettings =
    .ok ⟨⟨staleSettings, Walk.plainExclusions, []⟩, true, []⟩ := by cbv

theorem find_staleTree :
    staleTree.find staleSettings.output false = .ok (staleLocation, .ofBytes 1 [0x6B]) := by cbv

theorem created_staleTree : Created staleTree staleSettings.output (staleTree.erase staleLocation)
    true staleTreeCreated ⟨staleLocation, 2⟩ := by
  apply created_of_erase find_staleTree
  · simp [Node.kind, Node.ofBytes]
  · cbv
  · cbv
  · rfl

/-- The run goes as it would without anything at the output, and as it goes once more behind it. -/
theorem outcome_independent_of_output_stale :
    SameOutcome staleSettings.output staleLocation (packTree staleSettings staleTree)
        (packTree staleSettings (staleTree.erase staleLocation)) false ∧
      SameOutcome staleSettings.output staleLocation (packTree staleSettings staleTree)
        (packTree staleSettings (packTree staleSettings staleTree).fs) true := by
  have hcreated' : Created (staleTree.erase staleLocation) staleSettings.output
      (staleTree.erase staleLocation) false staleTreeCreated ⟨staleLocation, 2⟩ :=
    created_of_vacant (by cbv) (by cbv)
  have hlate : ¬FailsEarly staleSettings staleTree :=
    not_failsEarly_of_created (by cbv) ofSettings_staleSettings created_staleTree
  have hlate' : ¬FailsEarly staleSettings (staleTree.erase staleLocation) :=
    not_failsEarly_of_created (by cbv) ofSettings_staleSettings hcreated'
  obtain ⟨place, hspot, hl, -⟩ := find_eq_ok.1 find_staleTree
  obtain ⟨hother, hagain⟩ := outcome_independent_of_output rfl hspot hlate
  rw [show (Spot.occupied place).location = staleLocation from hl] at hother hagain
  have habsent :
      ((staleTree.erase staleLocation).find staleSettings.output false).isOk = false := by cbv
  constructor
  · rw [← habsent]
    exact hother _ (sameElsewhere_erase _ _) hlate'
  · refine (hagain ?_).2
    rintro ⟨outer, name, target, budget, there, -, -, hlink, -⟩
    rw [get?_of_find find_staleTree] at hlink
    cases hlink

end Pack

end TreeArchive
