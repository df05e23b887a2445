import TreeArchive.Checked
import TreeArchive.Console.Diagnosis
import TreeArchive.Console.Quantity
import TreeArchive.Json
import TreeArchive.Walk

/-! What the program writes: for people, line by line, or one JSON document. -/
namespace TreeArchive.Console

open Decimal

structure Output where
  stdout : String
  stderr : String
deriving DecidableEq, Repr

namespace Output

def empty : Output := ⟨"", ""⟩

def append (a b : Output) : Output := ⟨a.stdout ++ b.stdout, a.stderr ++ b.stderr⟩

end Output

/-- What is written, and the panic that comes behind it, if one does. -/
structure Written where
  output : Output
  panic? : Option Panic
deriving DecidableEq, Repr

structure Style where
  json : Bool
  verbose : Bool
  quiet : Bool
  colors : Bool
deriving DecidableEq, Repr

def asLines (lines : List String) : String :=
  String.join (lines.map fun line => line ++ "\n")

/-- Text in bold and one of the terminal's colors. -/
def colored (color : Nat) (text : String) : String :=
  s!"\x1b[{color}m\x1b[1m{text}\x1b[0m"

def red : Nat := 31
def green : Nat := 32
def yellow : Nat := 33

namespace Style

def heading (style : Style) (mark text : String) : String :=
  if style.colors then s!"{colored green mark} {text}" else text

/-- Entries are shown as they start only where neither JSON nor silence is asked for. -/
def isSilent (style : Style) : Bool :=
  style.json || style.quiet

/-- The sum of the sizes, added in 64 bits. -/
def totalSize (entries : List Entry) : Except Panic Nat :=
  Checked.sum (entries.map Entry.size)

def entryOutput (style : Style) (name : String) : Output :=
  if style.isSilent then .empty else ⟨name ++ "\n", ""⟩

def reportLines (style : Style) (r : Report) : List String :=
  ["", style.heading "✓" s!"Archive created: {r.output.display}", "",
    s!"  Files added:      {grouped r.filesAdded}",
    s!"  Total size:       {sizeText reportUnits r.bytesRead}",
    s!"  Archive size:     {sizeText reportUnits r.archiveSize}"] ++
  (if 0 < r.bytesRead then [s!"  Compression:      {r.compressionPercentage.fixed}%"] else []) ++
  (if style.verbose then
    ["  Replaced previous: " ++ (if r.replacedExisting then "yes" else "no"),
      s!"  Duration:         {durationText r.duration}"]
  else []) ++
  (if r.warnings.isEmpty then []
  else
    ["", if style.colors then colored yellow "Warnings:" else "Warnings:"] ++
      r.warnings.map fun warning => s!"  - {warning}")

def dryRunLines (style : Style) (entries : List Entry) : List String :=
  entries.map fun entry =>
    if style.verbose then
      padLeft 10 (sizeText reportUnits entry.size) ++ "  " ++ entry.relative.text
    else entry.relative.text

/-- What stands below the listing of a dry run, which has found so many files of so many bytes. -/
def dryRunSummary (style : Style) (output : Path) (files total : Nat) : List String :=
  let count := s!"{grouped files} files ({sizeText reportUnits total})"
  ["", style.heading "•" s!"Dry run: {count} would be packaged into {output.display}"]

/-- A document of the outcome: its data where it went well, the error text where it did not. -/
def document (outcome : Except String Json) : String :=
  let fields := match outcome with
    | .ok data => [("operation", .text "pack"), ("status", .text "success"), ("data", data)]
    | .error text => [("operation", .text "pack"), ("status", .text "error"), ("error", .text text)]
  (Json.object fields).render ++ "\n"

def reportJson (r : Report) (entries : List String) : Json :=
  .object
    [("output_path", .text r.output.display), ("files_added", .number r.filesAdded),
      ("bytes_read", .number r.bytesRead), ("archive_size", .number r.archiveSize),
      ("compression_ratio", .real r.compressionRatio),
      ("compression_percentage", .real r.compressionPercentage),
      ("replaced_existing", .bool r.replacedExisting),
      ("duration_ms", .number r.duration.milliseconds),
      ("warnings", .array (r.warnings.map .text)), ("entries", .array (entries.map .text))]

def dryRunJson (output : Path) (entries : List Entry) (total : Nat) : Json :=
  .object
    [("dry_run", .bool true), ("output_path", .text output.display),
      ("files", .number entries.length), ("total_size", .number total),
      ("entries", .array (entries.map fun entry =>
        .object [("path", .text entry.relative.text), ("size", .number entry.size)]))]

def reportOutput (style : Style) (r : Report) (entries : List String) : Output :=
  if style.json then ⟨document (.ok (reportJson r entries)), ""⟩
  else if style.quiet then .empty
  else ⟨asLines (style.reportLines r), ""⟩

/-- Where nothing is to be said, the sizes are not added. -/
def dryRunOutput (style : Style) (output : Path) (entries : List Entry) : Written :=
  if style.json then
    match totalSize entries with
    | .ok total => ⟨⟨document (.ok (dryRunJson output entries total)), ""⟩, none⟩
    | .error panic => ⟨.empty, some panic⟩
  else if style.quiet then ⟨.empty, none⟩
  else
    -- the entries are listed before their sizes are added
    let listed := asLines (style.dryRunLines entries)
    match totalSize entries with
    | .ok total =>
      ⟨⟨listed ++ asLines (style.dryRunSummary output entries.length total), ""⟩, none⟩
    | .error panic => ⟨⟨listed, ""⟩, some panic⟩

/-- Errors are shown also where all else is suppressed. -/
def errorOutput (style : Style) (d : Diagnosis) : Output :=
  if style.json then ⟨document (.error d.oneLine), ""⟩
  else
    let lead := if style.colors then colored red "ERROR:" else "ERROR:"
    ⟨"", s!"{lead} {d.full}\n"⟩

end Style

end TreeArchive.Console
