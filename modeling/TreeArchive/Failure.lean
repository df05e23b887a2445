import TreeArchive.Errno
import TreeArchive.Path

/-! Why a run fails, as causes; the wording of each cause; and what a cause says about the run. -/
namespace TreeArchive

/-- Two steps succeed together exactly if both do. -/
theorem bind_eq_ok {ε α β : Type} {x : Except ε α} {f : α → Except ε β} {b : β} :
    x >>= f = .ok b ↔ ∃ a, x = .ok a ∧ f a = .ok b := by
  cases x with
  | error e => simp [bind, Except.bind]
  | ok a => simp [bind, Except.bind]

/-- Of two steps together the first fails, or the second does behind it. -/
theorem bind_eq_error {ε α β : Type} {x : Except ε α} {f : α → Except ε β} {e : ε} :
    x >>= f = .error e ↔ x = .error e ∨ ∃ a, x = .ok a ∧ f a = .error e := by
  cases x with
  | error e => simp [bind, Except.bind]
  | ok a => simp [bind, Except.bind]

inductive IoError where
  | system (errno : Errno)
  | nulByte
  | custom (text : String)
deriving DecidableEq, Repr, Inhabited

namespace IoError

def message : IoError → String
  | .system errno => errno.message
  | .nulByte => "file name contained an unexpected NUL byte"
  | .custom text => text

def isNotFound : IoError → Bool
  | .system errno => errno == Errno.noEntry
  | _ => false

def isAlreadyExists : IoError → Bool
  | .system errno => errno == Errno.fileExists
  | _ => false

end IoError

/-- Why a text or path is no relative path. -/
inductive RelativePathFault where
  | absolute
  | parentComponent
  | empty
  | other (text : String)
deriving DecidableEq, Repr, Inhabited

def RelativePathFault.message : RelativePathFault → String
  | .absolute => "is absolute"
  | .parentComponent => "contains a parent directory component"
  | .empty => "is empty"
  | .other text => text

/-- Why a text is no exclusion pattern. -/
inductive PatternFault where
  | emptyText
  | noComponents
  | other (text : String)
deriving DecidableEq, Repr, Inhabited

def PatternFault.message : PatternFault → String
  | .emptyText => "empty pattern"
  | .noComponents => "pattern has no path components"
  | .other text => text

/-- What an archive writer or reader can object to, apart from its input and output. -/
inductive ArchiveFault where
  | invalid (text : String)
  | unsupported (text : String)
  | memberNotFound
  | wrongPassword
deriving DecidableEq, Repr, Inhabited

def ArchiveFault.message : ArchiveFault → String
  | .invalid text => s!"invalid Zip archive: {text}"
  | .unsupported text => s!"unsupported Zip archive: {text}"
  | .memberNotFound => "specified file not found in archive"
  | .wrongPassword => "provided password is incorrect"

inductive Failure where
  | io (source : IoError)
  | walk (path : Path) (source : IoError)
  | unreadable (path : Path) (source : IoError)
  | removeOutput (path : Path) (source : IoError)
  | createOutput (path : Path) (source : IoError)
  | outputExists (path : Path)
  | outputIsDirectory (path : Path)
  | sourceNotFound (path : Path)
  | sourceNotDirectory (path : Path)
  | sourceOutsideRoot (source root : Path)
  | outsideRoot (path root : Path)
  | nonUtf8Path (path : Path)
  | invalidRelativePath (text : String) (fault : RelativePathFault)
  | invalidPattern (text : String) (fault : PatternFault)
  | invalidCompressionLevel (level : UInt8)
  | archive (fault : ArchiveFault)
deriving DecidableEq, Repr, Inhabited

namespace Failure

def message : Failure → String
  | .io source => s!"I/O error: {source.message}"
  | .walk path source => s!"cannot walk {path.display}: {source.message}"
  | .unreadable path source => s!"cannot read {path.display}: {source.message}"
  | .removeOutput path source =>
    s!"cannot remove existing output {path.display}: {source.message}"
  | .createOutput path source => s!"cannot create output {path.display}: {source.message}"
  | .outputExists path => s!"output already exists: {path.display}"
  | .outputIsDirectory path => s!"output path is a directory: {path.display}"
  | .sourceNotFound path => s!"source not found: {path.display}"
  | .sourceNotDirectory path => s!"source is not a directory: {path.display}"
  | .sourceOutsideRoot source root =>
    s!"source {source.display} is not under packaging root {root.display}"
  | .outsideRoot path root => s!"path {path.display} is not under root {root.display}"
  | .nonUtf8Path path => s!"path is not valid UTF-8: {path.display}"
  | .invalidRelativePath text fault => s!"invalid relative path '{text}': {fault.message}"
  | .invalidPattern text fault => s!"invalid exclude pattern '{text}': {fault.message}"
  | .invalidCompressionLevel level => s!"invalid compression level {level}, must be 1-9"
  | .archive fault => s!"ZIP error: {fault.message}"

/-- The texts of the causes below this one, the nearest first. -/
def sources : Failure → List String
  | .io source | .walk _ source | .unreadable _ source | .removeOutput _ source
  | .createOutput _ source => [source.message]
  | .archive fault => [fault.message]
  | _ => []

/-- The cause comes from the file system. -/
def isIoError : Failure → Bool
  | .io _ | .walk .. | .unreadable .. | .removeOutput .. | .createOutput .. => true
  | _ => false

/-- The cause is a setting, found wrong before any output was touched. -/
def isSettingsError : Failure → Bool
  | .sourceNotFound _ | .sourceNotDirectory _ | .sourceOutsideRoot .. | .outputIsDirectory _
  | .invalidPattern .. | .invalidCompressionLevel _ => true
  | _ => false

def path? : Failure → Option Path
  | .walk path _ | .unreadable path _ | .removeOutput path _ | .createOutput path _
  | .outputExists path | .outputIsDirectory path | .sourceNotFound path
  | .sourceNotDirectory path | .outsideRoot path _ | .nonUtf8Path path => some path
  | .sourceOutsideRoot source _ => some source
  | _ => none

end Failure

end TreeArchive
