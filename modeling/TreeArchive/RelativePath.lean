import TreeArchive.Failure

/-!
A path below the packaging root, in ordinary components. It is both what exclusion patterns are
tested against and the name of a member in the archive.
-/
namespace TreeArchive

open Text

/-- An ordinary component: text without `/` that is not empty, `.` or `..`. -/
def isOrdinary (component : List Char) : Bool :=
  !component.isEmpty && component != ['.'] && component != ['.', '.'] && !component.contains '/'

structure RelativePath where
  components : List (List Char)
  components_ne_nil : components ≠ []
  ordinary : ∀ c ∈ components, isOrdinary c = true
deriving DecidableEq

namespace RelativePath

def ofComponents? (components : List (List Char)) : Option RelativePath :=
  if h : components ≠ [] ∧ ∀ c ∈ components, isOrdinary c = true then
    some ⟨components, h.1, h.2⟩
  else none

def chars (r : RelativePath) : List Char :=
  join '/' r.components

/-- The components with `/` between them. -/
def text (r : RelativePath) : String :=
  String.ofList r.chars

def depth (r : RelativePath) : Nat :=
  r.components.length

def fileName (r : RelativePath) : List Char :=
  r.components.getLast r.components_ne_nil

/-- The native path of the same components. -/
def toPath (r : RelativePath) : Path :=
  Path.ofChars r.chars

def resolve (r : RelativePath) (root : Path) : Path :=
  root.append r.toPath

/-- Order by text, code point by code point. -/
def le (r s : RelativePath) : Bool :=
  !s.chars.lex r.chars fun c d => decide (c.toNat < d.toNat)

def isSeparator (c : Char) : Bool :=
  c == '/' || c == '\\'

/-- Reads `/` and `\` as separators and drops empty and `.` parts. -/
def parse (text : String) : Except Failure RelativePath :=
  let chars := text.toList
  let parts := (pieces isSeparator chars).filter fun part => !part.isEmpty && part != ['.']
  -- of several faults the one named first here is told
  if chars.head?.any isSeparator then .error (.invalidRelativePath text .absolute)
  else if parts.contains ['.', '.'] then .error (.invalidRelativePath text .parentComponent)
  else
    match ofComponents? parts with
    | some r => .ok r
    | none => .error (.invalidRelativePath text .empty)

def readComponents (whole relative : Path) :
    List Path.Component → Except Failure (List (List Char))
  | [] => .ok []
  | .normal name :: rest =>
    match Utf8.decode? name with
    | some component => (component :: ·) <$> readComponents whole relative rest
    | none => .error (.nonUtf8Path whole)
  | .current :: rest => readComponents whole relative rest
  | .parent :: _ => .error (.invalidRelativePath relative.display .parentComponent)
  | .root :: _ => .error (.invalidRelativePath relative.display .absolute)

/-- The path of `path` below `root`, both read component by component. -/
def fromRoot (path root : Path) : Except Failure RelativePath :=
  match path.strip? root with
  | none => .error (.outsideRoot path root)
  | some relative => do
    let components ← readComponents path relative relative.components
    match ofComponents? components with
    | some r => .ok r
    | none => .error (.invalidRelativePath relative.display .empty)

end RelativePath

end TreeArchive
