import TreeArchive.FileSystem.Operations
import TreeArchive.Glob.Pattern

/-! What one run is asked to do, and whether the request makes sense on a file system. -/
namespace TreeArchive

structure Settings where
  /-- Names of members are relative to it. -/
  root : Path
  /-- The directory that is walked. -/
  source : Path
  output : Path
  excludes : List String
  caseSensitive : Bool
  followLinks : Bool
  sorted : Bool
  level : UInt8
  keepModes : Bool
deriving DecidableEq, Repr

namespace Settings

def defaultExcludes : List String := ["*.pdb"]

/-- The archive's name where the root has none. -/
def fallbackName : String := "archive"

/-- `<root>/<name>.zip`, by default under the root's own name. -/
def defaultOutput (root : Path) (name : Option String) : Path :=
  let root := root.normalize
  let name := name.getD <|
    match root.fileName? with
    | some own => String.ofList (Text.Utf8.lossy own)
    | none => fallbackName
  root.append (.ofString s!"{name}.zip")

def forRoot (root : Path) : Settings where
  root := root
  source := root
  output := defaultOutput root none
  excludes := defaultExcludes
  caseSensitive := true
  followLinks := false
  sorted := true
  level := 6
  keepModes := true

def isLevel (level : UInt8) : Bool :=
  1 ≤ level && level ≤ 9

def levelRule : String := "compression level must be 1-9"

/-- A level outside the range is refused with the rule that it breaks. -/
def withLevel (s : Settings) (level : UInt8) : Except String Settings :=
  if isLevel level then .ok { s with level := level } else .error levelRule

def exclusions (s : Settings) : Except Failure Exclusions :=
  Exclusions.compile s.excludes s.caseSensitive

/-- The source exists and is a directory. -/
def checkSource (s : Settings) (fs : FileSystem) : Except Failure Unit :=
  match fs.find s.source true with
  | .ok (_, .directory ..) => .ok ()
  | .ok _ => .error (.sourceNotDirectory s.source)
  | .error e =>
    if e.isNotFound then .error (.sourceNotFound s.source) else .error (.walk s.source e)

/-- The output path leads to a directory. -/
def outputIsDirectory (s : Settings) (fs : FileSystem) : Bool :=
  match fs.find s.output true with
  | .ok (_, .directory ..) => true
  | _ => false

/-- The checks before a run: level, patterns, source below root, source, output. -/
def validate (s : Settings) (fs : FileSystem) : Except Failure Unit := do
  -- nothing of the file system is looked at before the level, the patterns and the root are right
  if !isLevel s.level then .error (.invalidCompressionLevel s.level)
  let _ ← s.exclusions
  if !s.source.startsWith s.root then .error (.sourceOutsideRoot s.source s.root)
  s.checkSource fs
  if s.outputIsDirectory fs then .error (.outputIsDirectory s.output)

end Settings

end TreeArchive
