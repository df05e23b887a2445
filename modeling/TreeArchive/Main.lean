import TreeArchive.Host
import TreeArchive.Session

/-! The command line program. -/

open TreeArchive

/-- The part of the host that a command line is about. -/
def picture (words : List CommandLine.Word) : IO Host.Picture := do
  let start ← Host.start
  match CommandLine.Arguments.parse words with
  | .ok a => Host.capturedFor (a.settings start.fs.workingDirectory.toPath) start
  | .error _ => return start

def publishRun (words : List CommandLine.Word) (before after : FileSystem) : IO Unit :=
  match CommandLine.Arguments.parse words with
  | .ok a => Host.publish before after (a.settings before.workingDirectory.toPath).output
  | .error _ => pure ()

def main (args : List String) : IO UInt32 := do
  let words := args.map CommandLine.word
  let before := (← picture words).fs
  let stdout ← IO.getStdout
  let stderr ← IO.getStderr
  let started ← IO.monoNanosNow
  let terminal := (← stdout.isTty) && (← stderr.isTty)
  let around : Surroundings :=
    { Surroundings.plain with
      colors := ← stdout.isTty
      draw? := if terminal then some Console.Display.redraw else none }
  let session := Session.run words around before
  publishRun words before session.fs
  let output := session.output ⟨(← IO.monoNanosNow) - started⟩
  stdout.putStr output.stdout
  stdout.flush
  stderr.putStr output.stderr
  return session.exitStatus.toUInt32
