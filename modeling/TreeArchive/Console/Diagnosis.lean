import TreeArchive.Failure
import TreeArchive.Text.Pieces
import TreeArchive.Decimal.Grouped

/-!
A failure as the program tells it: a message, with a hint where one helps, and the causes below it.
-/
namespace TreeArchive.Console

structure Diagnosis where
  message : String
  causes : List String
deriving DecidableEq, Repr

namespace Diagnosis

def hinted (message hint : String) : Diagnosis :=
  ⟨message ++ "\nHINT: " ++ hint, []⟩

/-- What is said of a failure of a run that was to write `output`. -/
def ofFailure (failure : Failure) (output : Path) : Diagnosis :=
  match failure with
  | .sourceNotFound path =>
    hinted s!"Source directory not found: {path.display}"
      "Pass the directory to package as SOURCE, or run from the packaging root."
  | .sourceNotDirectory path =>
    hinted s!"Source is not a directory: {path.display}"
      "SOURCE must be a directory; single files are not packaged on their own."
  | .sourceOutsideRoot source root =>
    hinted s!"Source '{source.display}' is not inside packaging root '{root.display}'"
      "Entry names are relative to the root. Use --root to pick a parent of SOURCE."
  | .invalidPattern text fault =>
    hinted s!"Invalid exclude pattern '{text}': {fault.message}"
      "Patterns are globs such as '*.pdb', 'Backups' or '/Thumbs.db'."
  | .outputIsDirectory path =>
    hinted s!"Output path is a directory: {path.display}"
      "Use --output with a file path, e.g. --output dist/Mod.zip."
  | .removeOutput path source =>
    hinted s!"Cannot remove previous archive '{path.display}': {source.message}"
      "Close any program holding the archive open and try again."
  | .outputExists path =>
    hinted s!"Archive '{path.display}' reappeared while packaging started"
      "Another process is writing the same archive. Run one packager at a time."
  | .unreadable path source =>
    hinted s!"Cannot read '{path.display}': {source.message}"
      s!"The file may have been removed or locked during packaging. The archive at '{output.display}' is incomplete."
  | .walk path source =>
    hinted s!"Cannot walk '{path.display}': {source.message}"
      s!"Check permissions and broken symlinks. The archive at '{output.display}' is incomplete."
  | other => ⟨s!"Error packaging into '{output.display}'", other.message :: other.sources⟩

/-- The message and its causes on one line. -/
def oneLine (d : Diagnosis) : String :=
  String.intercalate ": " (d.message :: d.causes)

def lines (text : String) : List String :=
  (Text.pieces (· == '\n') text.toList).map String.ofList

/-- The lines of a cause, the first behind `lead` and the others behind as many blanks. -/
def indented (lead : String) (text : String) : String :=
  lead ++ String.intercalate (String.ofList ('\n' :: List.replicate lead.length ' ')) (lines text)

def numbered (n : Nat) (cause : String) : String :=
  let number := Decimal.digits n
  indented (String.ofList (List.replicate (5 - number.length) ' ' ++ number ++ [':', ' '])) cause

/-- The message and, below it, its causes; several causes are numbered. -/
def full (d : Diagnosis) : String :=
  match d.causes with
  | [] => d.message
  | [cause] => d.message ++ "\n\nCaused by:\n" ++ indented "    " cause
  | causes =>
    d.message ++ "\n\nCaused by:\n" ++
      String.intercalate "\n" (causes.zipIdx.map fun (cause, n) => numbered n cause)

end Diagnosis

end TreeArchive.Console
