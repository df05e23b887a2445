import TreeArchive.CommandLine.Usage
import TreeArchive.Console.Progress

/-!
One call of the program: from the words of the command line to what is written and what becomes of
the files.
-/
namespace TreeArchive

open CommandLine Console

/-- What a call finds beside the files. -/
structure Surroundings where
  colors : Bool
  /-- How a spinner is drawn, if both channels lead to a terminal. -/
  draw? : Option (List Display → String)
  /-- What the host tells of a panic: where in the program it was, and its message. -/
  tell : Panic → String

namespace Surroundings

/-- Neither channel leads to a terminal. -/
def plain : Surroundings :=
  ⟨false, none, fun panic => panic.message ++ "\n"⟩

/-- Both channels lead to a terminal. -/
def terminal : Surroundings :=
  { plain with colors := true, draw? := some Display.redraw }

/-- There is no spinner where only JSON or nothing at all is to be written. -/
def drawn (around : Surroundings) (style : Style) (displays : List Display) : String :=
  match around.draw? with
  | some draw => if style.isSilent then "" else draw displays
  | none => ""

end Surroundings

structure Session where
  exitStatus : Nat
  /-- What is written if the packing took so long. -/
  output : Duration → Output
  /-- The files behind the call; if it panics, what they would have become without that. -/
  fs : FileSystem

namespace Session

def styleOf (a : Arguments) (colors : Bool) : Style :=
  ⟨a.has .json, a.has .verbose, a.has .quiet, colors⟩

def failed (style : Style) (s : Settings) (failure : Failure) (shown : Output) (fs : FileSystem) :
    Session :=
  ⟨1, fun _ => shown.append (style.errorOutput (.ofFailure failure s.output)), fs⟩

def panicked (around : Surroundings) (panic : Panic) (shown : Output) (fs : FileSystem) : Session :=
  ⟨101, fun _ => shown.append ⟨"", around.tell panic⟩, fs⟩

/-- Lists what a run would pack. -/
def dryRun (around : Surroundings) (style : Style) (s : Settings) (fs : FileSystem) : Session :=
  match Pack.dryRun s fs with
  | .ok entries =>
    let written := style.dryRunOutput s.output entries
    match written.panic? with
    | some panic => panicked around panic written.output fs
    | none => ⟨0, fun _ => written.output, fs⟩
  | .error failure => failed style s failure .empty fs

/-- Packs; names are shown as their entries start, also those of a run that fails later. -/
def pack (around : Surroundings) (style : Style) (s : Settings) (fs : FileSystem) : Session :=
  let packed := Pack.packTree s fs
  let progress := (Progress.ofStyle style).handleAll packed.events
  let shown : Output := ⟨progress.stdout, around.drawn style progress.ended⟩
  match progress.panic?, packed.result with
  | some panic, _ => panicked around panic shown packed.fs
  | none, .ok report =>
    let output (taken : Duration) :=
      shown.append (style.reportOutput { report with duration := taken } progress.names)
    ⟨0, output, packed.fs⟩
  | none, .error failure => failed style s failure shown packed.fs

def ofArguments (a : Arguments) (around : Surroundings) (fs : FileSystem) : Session :=
  let s := a.settings fs.workingDirectory.toPath
  let style := styleOf a around.colors
  if a.has .dryRun then dryRun around style s fs else pack around style s fs

/-- What is told where there is no run; faults go to the error channel. -/
def ofStop (stop : Stop) (fs : FileSystem) : Session :=
  let text := stop.message ++ "\n"
  ⟨stop.exitStatus, fun _ => if stop.exitStatus = 0 then ⟨text, ""⟩ else ⟨"", text⟩, fs⟩

def run (words : List Word) (around : Surroundings) (fs : FileSystem) : Session :=
  match Arguments.parse words with
  | .ok a => ofArguments a around fs
  | .error stop => ofStop stop fs

end Session

end TreeArchive
