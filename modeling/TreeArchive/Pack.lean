import TreeArchive.Archive.Writer
import TreeArchive.Report
import TreeArchive.Walk

/-!
Writing the entries that a walk yields into a fresh archive. Entries are pulled one at a time; each
is read and written before the next is pulled, and the first failure ends the run.
-/
namespace TreeArchive

inductive Event where
  | started (name : RelativePath) (number : Nat)
  | bytes (count : Nat)
  | completed (name : RelativePath)
  | finished
deriving DecidableEq

namespace Pack

/-- Files are read in pieces of this size. -/
def bufferSize : Nat := 65536

/-- Removes what is at the output path, and says whether anything was. -/
def resetOutput (fs : FileSystem) (output : Path) : Except Failure (FileSystem × Bool) :=
  match fs.find output false with
  | .ok (_, .directory ..) => .error (.outputIsDirectory output)
  | .ok _ =>
    match fs.unlink output with
    | .ok fs => .ok (fs, true)
    | .error e => if e.isNotFound then .ok (fs, false) else .error (.removeOutput output e)
  | .error e => if e.isNotFound then .ok (fs, false) else .error (.removeOutput output e)

/-- Creates the output where nothing may be. -/
def createOutput (fs : FileSystem) (output : Path) :
    Except Failure (FileSystem × FileSystem.Handle) :=
  match fs.createNew output with
  | .ok created => .ok created
  | .error e =>
    if e.isAlreadyExists then .error (.outputExists output) else .error (.createOutput output e)

/-- A run in the middle: the file system, the open output, and the archive so far. -/
structure Run where
  fs : FileSystem
  output : FileSystem.Handle
  writer : Archive.Writer

def memberOf (s : Settings) (entry : Entry) (mode : Nat) : Member where
  name := entry.relative.text
  mode := Archive.regularFile + if s.keepModes then mode % 0o1000 else 0o644
  content := .empty
  large := Archive.plainLimit ≤ entry.size

/-- What one entry does: the run behind it, the bytes that went in, and the number of bytes read. -/
structure Added where
  run : Run
  written : List Nat
  result : Except Failure Nat

/-- Starts a member for an entry and copies its file. The file is opened before the member starts
and read after. -/
def addFile (s : Settings) (run : Run) (entry : Entry) : Added :=
  let path := entry.relative.resolve s.root
  match run.fs.openFile path with
  | .error e => ⟨run, [], .error (.unreadable path e)⟩
  | .ok opened =>
    -- the mode is the file's own at the moment it is opened, whatever was listed
    match run.writer.start (memberOf s entry opened.mode) with
    | .error failure => ⟨run, [], .error failure⟩
    | .ok writer =>
      let run := { run with writer := writer, fs := run.fs.store run.output writer.visible none }
      -- the output itself may be the file that is read: its header already stands in it
      match run.fs.openFile path >>= FileSystem.Opened.read with
      | .error e => ⟨run, [], .error (.unreadable path e)⟩
      | .ok content =>
        match writer.write bufferSize content with
        | (written, .ok writer) => ⟨{ run with writer := writer }, written, .ok content.size⟩
        | (written, .error failure) =>
          ⟨{ run with writer := writer.abort }, written, .error failure⟩

def warning (entry : Entry) (read : Nat) : String :=
  s!"{entry.relative.text} changed size while packaging ({entry.size} bytes listed, {read} bytes read)"

def count (report : Report) (entry : Entry) (read : Nat) : Report :=
  { report with
    filesAdded := report.filesAdded + 1
    bytesRead := report.bytesRead + read
    warnings :=
      if read = entry.size then report.warnings else report.warnings ++ [warning entry read] }

/-- Where items come from. `pull` gives what the file system has become and the next item with the
source behind it; no more than `limit` items come. -/
structure Source (σ : Type) where
  pull : FileSystem → σ → FileSystem × Option (Except Failure Entry × σ)
  limit : FileSystem → σ → Nat

variable {σ : Type}

/-- Adds at most `limit` items; what came of them, the events, and the report or the failure that
ended it. -/
def addAll (s : Settings) (source : Source σ) :
    Nat → σ → Run → Report → Run × List Event × Except Failure Report
  | 0, _, run, report => (run, [], .ok report)
  | limit + 1, state, run, report =>
    match source.pull run.fs state with
    | (fs, none) => ({ run with fs := fs }, [], .ok report)
    | (fs, some (.error failure, _)) => ({ run with fs := fs }, [], .error failure)
    | (fs, some (.ok entry, state)) =>
      let added := addFile s { run with fs := fs } entry
      let events := .started entry.relative (report.filesAdded + 1) :: added.written.map .bytes
      match added.result with
      | .error failure => (added.run, events, .error failure)
      | .ok read =>
        let (run, more, result) := addAll s source limit state added.run (count report entry read)
        (run, events ++ .completed entry.relative :: more, result)

end Pack

/-- What a run leaves behind. -/
structure Packed where
  fs : FileSystem
  events : List Event
  result : Except Failure Report

namespace Pack

/-- Completes the archive and puts it into the output. -/
def close (run : Run) : FileSystem × Content :=
  let records := run.writer.completed
  let image := Archive.image records
  (run.fs.store run.output image (some records), image)

/-- Packs the items of a source. The archive is completed also when the run fails. -/
def packFrom (s : Settings) (output : Path) (source : Source σ) (state : σ) (fs : FileSystem) :
    Packed :=
  match resetOutput fs output with
  | .error failure => ⟨fs, [], .error failure⟩
  | .ok (fs, replaced) =>
    match createOutput fs output with
    | .error failure => ⟨fs, [], .error failure⟩
    | .ok (fs, handle) =>
      let run : Run := ⟨fs, handle, .ofLevel s.level⟩
      let report := Report.ofOutput output replaced
      let (run, events, result) := addAll s source (source.limit fs state) state run report
      let (fs, image) := close run
      match result with
      | .error failure => ⟨fs, events, .error failure⟩
      | .ok report =>
        ⟨fs, events ++ [.finished], .ok { report with archiveSize := image.size }⟩

/-- An item that is handed over together with a change that happens when it is pulled. -/
structure Supplied where
  change : FileSystem → FileSystem
  item : Except Failure Entry

def suppliedItems : Source (List Supplied) where
  pull fs
    | [] => (fs, none)
    | supplied :: rest => (supplied.change fs, some (supplied.item, rest))
  limit _ items := items.length + 1

/-- Packs the given items. -/
def packItems (s : Settings) (output : Path) (items : List Supplied) (fs : FileSystem) : Packed :=
  packFrom s output suppliedItems items fs

def walking : Source Walk where
  pull fs w := (fs, w.next fs)
  limit fs w := w.weight fs + 1

/-- Checks the settings, then packs what the walk yields; the output itself is kept out of the walk.
-/
def packTree (s : Settings) (fs : FileSystem) : Packed :=
  match s.validate fs, Walk.ofSettings s with
  | .error failure, _ | _, .error failure => ⟨fs, [], .error failure⟩
  | .ok (), .ok w => packFrom s s.output walking (w.skip s.output) fs

/-- The entries that a run would pack. -/
def dryRun (s : Settings) (fs : FileSystem) : Except Failure (List Entry) := do
  s.validate fs
  let w ← Walk.ofSettings s
  (w.skip s.output).collect fs

end Pack

end TreeArchive
