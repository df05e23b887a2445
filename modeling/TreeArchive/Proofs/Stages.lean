import TreeArchive.Proofs.Run

/-!
The stages that an entry goes through, and those of a run that pulls entries from a walk: an
equation for each way in which one may end.
-/
namespace TreeArchive

open FileSystem

namespace Pack

section Entry

variable {s : Settings} {run : Run} {entry : Entry} {opened : Opened} {writer next : Archive.Writer}
  {content : Content} {written : List Nat} {e : IoError} {f : Failure}

/-- The run when a member has been started for an entry: its header stands in the output. -/
def Run.started (run : Run) (writer : Archive.Writer) : Run :=
  { run with fs := run.fs.store run.output writer.visible none, writer := writer }

theorem addFile_unopened (hopen : run.fs.openFile (entry.relative.resolve s.root) = .error e) :
    addFile s run entry = ⟨run, [], .error (.unreadable (entry.relative.resolve s.root) e)⟩ := by
  simp only [addFile, hopen]

theorem addFile_refused (hopen : run.fs.openFile (entry.relative.resolve s.root) = .ok opened)
    (hstart : run.writer.start (memberOf s entry opened.mode) = .error f) :
    addFile s run entry = ⟨run, [], .error f⟩ := by
  simp only [addFile, hopen, hstart]

theorem addFile_unread (hopen : run.fs.openFile (entry.relative.resolve s.root) = .ok opened)
    (hstart : run.writer.start (memberOf s entry opened.mode) = .ok writer)
    (hread : ((run.started writer).fs.openFile (entry.relative.resolve s.root) >>= Opened.read) =
      .error e) :
    addFile s run entry =
      ⟨run.started writer, [], .error (.unreadable (entry.relative.resolve s.root) e)⟩ := by
  simp only [Run.started] at hread ⊢
  simp only [addFile, hopen, hstart, hread]

theorem addFile_outgrown (hopen : run.fs.openFile (entry.relative.resolve s.root) = .ok opened)
    (hstart : run.writer.start (memberOf s entry opened.mode) = .ok writer)
    (hread : ((run.started writer).fs.openFile (entry.relative.resolve s.root) >>= Opened.read) =
      .ok content)
    (hwrite : writer.write bufferSize content = (written, .error f)) :
    addFile s run entry =
      ⟨{ run.started writer with writer := writer.abort }, written, .error f⟩ := by
  simp only [Run.started] at hread ⊢
  simp only [addFile, hopen, hstart, hread, hwrite]

theorem addFile_written (hopen : run.fs.openFile (entry.relative.resolve s.root) = .ok opened)
    (hstart : run.writer.start (memberOf s entry opened.mode) = .ok writer)
    (hread : ((run.started writer).fs.openFile (entry.relative.resolve s.root) >>= Opened.read) =
      .ok content)
    (hwrite : writer.write bufferSize content = (written, .ok next)) :
    addFile s run entry =
      ⟨{ run.started writer with writer := next }, written, .ok content.size⟩ := by
  simp only [Run.started] at hread ⊢
  simp only [addFile, hopen, hstart, hread, hwrite]

end Entry

section Pulled

variable {s : Settings} {limit : Nat} {w w' : Walk} {run : Run} {report : Report} {entry : Entry}
  {f : Failure} {read : Nat}

theorem addAll_exhausted (hnext : w.next run.fs = none) :
    addAll s walking (limit + 1) w run report = (run, [], .ok report) := by
  simp only [addAll, walking, hnext]

theorem addAll_of_exhausted (hlast : ∀ fs, w.next fs = none) (limit : Nat) (run : Run)
    (report : Report) : addAll s walking limit w run report = (run, [], .ok report) := by
  cases limit with
  | zero => rfl
  | succ limit => exact addAll_exhausted (hlast run.fs)

theorem addAll_fault (hnext : w.next run.fs = some (.error f, w')) :
    addAll s walking (limit + 1) w run report = (run, [], .error f) := by
  simp only [addAll, walking, hnext]

theorem addAll_failed (hnext : w.next run.fs = some (.ok entry, w'))
    (hresult : (addFile s run entry).result = .error f) :
    addAll s walking (limit + 1) w run report =
      ((addFile s run entry).run,
        .started entry.relative (report.filesAdded + 1) ::
          (addFile s run entry).written.map .bytes, .error f) := by
  simp only [addAll, walking, hnext, hresult]

theorem addAll_added (hnext : w.next run.fs = some (.ok entry, w'))
    (hresult : (addFile s run entry).result = .ok read) :
    addAll s walking (limit + 1) w run report =
      let rest := addAll s walking limit w' (addFile s run entry).run (count report entry read)
      (rest.1,
        .started entry.relative (report.filesAdded + 1) ::
          (addFile s run entry).written.map .bytes ++ .completed entry.relative :: rest.2.1,
        rest.2.2) := by
  simp only [addAll, walking, hnext, hresult]

end Pulled

end Pack

end TreeArchive
