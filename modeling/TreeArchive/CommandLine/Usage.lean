import TreeArchive.CommandLine.Arguments

/-! What is told where a command line asks for no run. -/
namespace TreeArchive.CommandLine

def programName : String := "treepack"

def versionText : String := programName ++ " 0.1.0"

namespace Parameter

def placeholder : Parameter → String
  | .root => "DIR"
  | .output => "FILE"
  | .name => "NAME"
  | .exclude => "PATTERN"
  | .level => "COMPRESSION_LEVEL"

end Parameter

def sourcePlaceholder : String := "SOURCE"

def Key.meaning : Key → String
  | .parameter .root => "Packaging root; entry names are relative to it (default: current directory)"
  | .parameter .output => "Output archive path (default: <ROOT>/<NAME>.zip)"
  | .parameter .name => "Archive file name without extension (default: name of the packaging root)"
  | .parameter .exclude => "Exclude pattern (glob, can be repeated; replaces the default *.pdb)"
  | .parameter .level => "Compression level (1-9)"
  | .flag .noDefaultExcludes => "Do not exclude anything unless --exclude is given"
  | .flag .followLinks => "Descend into symlinked directories"
  | .flag .noSort => "Keep directory listing order instead of sorting by name"
  | .flag .ignoreCase => "Match exclude patterns ignoring case"
  | .flag .matchCase => "Match exclude patterns respecting case"
  | .flag .dryRun => "List the files that would be packaged without writing the archive"
  | .flag .verbose => "Enable verbose output and debug logging"
  | .flag .quiet => "Suppress non-error output"
  | .flag .json => "Output results in JSON format"
  | .help => "Print help"
  | .version => "Print version"

/-- The long spelling of a key, with the name of its value. -/
def Key.longText (key : Key) : String :=
  let name := match spellings.find? fun s => s.key == key with
    | some s => "--" ++ s.long
    | none => ""
  match key with
  | .parameter p => s!"{name} <{p.placeholder}>"
  | _ => name

def Spelling.line (s : Spelling) : String :=
  let lead := match s.short with
    | some c => String.ofList ['-', c, ',', ' ']
    | none => "    "
  s!"  {lead}{s.key.longText}\n          {s.key.meaning}"

def usageLine : String :=
  s!"Usage: {programName} [OPTIONS] [{sourcePlaceholder}]"

def helpText : String :=
  String.intercalate "\n" ([usageLine, "", "Options:"] ++ spellings.map Spelling.line)

def Target.text : Target → String
  | .parameter p => (Key.parameter p).longText
  | .source => s!"[{sourcePlaceholder}]"

namespace Stop

/-- A request for information is no fault. -/
def exitStatus : Stop → Nat
  | .help | .version => 0
  | _ => 2

def message : Stop → String
  | .help => helpText
  | .version => versionText
  | .unknown w => s!"error: unexpected argument '{(Path.mk w).display}' found"
  | .missingValue target => s!"error: a value is required for '{target.text}' but none was supplied"
  | .unneededValue key => s!"error: unexpected value for '{key.longText}' found; no more were expected"
  | .repeated key => s!"error: the argument '{key.longText}' cannot be used multiple times"
  | .conflict a b => s!"error: the argument '{a.longText}' cannot be used with '{b.longText}'"
  | .notText _ => "error: invalid UTF-8 was detected in one or more arguments"
  | .badLevel value =>
    s!"error: invalid value '{(Path.mk value).display}' for '{(Key.parameter .level).longText}'"

end Stop

end TreeArchive.CommandLine
