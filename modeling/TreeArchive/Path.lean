import TreeArchive.Text.Pieces
import TreeArchive.Text.Utf8

/-!
Paths as the host reads them: bytes, cut into components at `/`. Repeated and trailing separators
and every `.` but a leading one are no components; the text of a path is kept as it was written.
-/
namespace TreeArchive

open Text

/-- One file name, as bytes. -/
abbrev Name := List UInt8

structure Path where
  bytes : List UInt8
deriving DecidableEq, Repr, Inhabited

namespace Path

inductive Component where
  | root
  | current
  | parent
  | normal (name : Name)
deriving DecidableEq, Repr

def slash : UInt8 := 0x2F

def dotName : Name := [0x2E]

def dotDotName : Name := [0x2E, 0x2E]

def ofChars (text : List Char) : Path := ⟨Utf8.encode text⟩

def ofString (text : String) : Path := ofChars text.toList

/-- The path as text; parts that are no UTF-8 appear as U+FFFD. -/
def display (p : Path) : String :=
  String.ofList (Utf8.lossy p.bytes)

def isAbsolute (p : Path) : Bool :=
  p.bytes.head? == some slash

/-- The texts between separators, empty ones included. -/
def segments (p : Path) : List Name :=
  pieces (· == slash) p.bytes

/-- Segments that name nothing once the start of the path is behind. -/
def isBlank (segment : Name) : Bool :=
  segment.isEmpty || segment == dotName

def Component.ofName (name : Name) : Component :=
  if name == dotDotName then .parent else .normal name

def components (p : Path) : List Component :=
  let named := (p.segments.filter (!isBlank ·)).map Component.ofName
  if p.isAbsolute then .root :: named
  else if p.segments.head? == some dotName then .current :: named
  else named

/-- Appends with one separator; an absolute path replaces what stands before it. -/
def append (p q : Path) : Path :=
  if q.isAbsolute then q
  else if p.bytes.isEmpty || p.bytes.getLast? == some slash then ⟨p.bytes ++ q.bytes⟩
  else ⟨p.bytes ++ slash :: q.bytes⟩

def child (p : Path) (name : Name) : Path :=
  p.append ⟨name⟩

/-- The last component, if it is an ordinary name. -/
def fileName? (p : Path) : Option Name :=
  match p.components.getLast? with
  | some (.normal name) => some name
  | _ => none

def trimEnd (segments : List Name) : List Name :=
  (segments.reverse.dropWhile isBlank).reverse

def dropNamed : Nat → List Name → List Name
  | 0, segments => segments
  | _ + 1, [] => []
  | n + 1, segment :: rest =>
    if isBlank segment then dropNamed (n + 1) rest else dropNamed n rest

/-- The written text behind the first `n` components, without blank segments at either end. -/
def afterComponents (p : Path) (n : Nat) : Path :=
  if n = 0 then
    if p.isAbsolute then ⟨slash :: join slash (trimEnd p.segments.tail)⟩
    else
      match p.segments with
      | first :: rest =>
        if first == dotName then ⟨join slash (first :: trimEnd rest)⟩
        else ⟨join slash (trimEnd (first :: rest))⟩
      | [] => ⟨[]⟩
  else
    -- a root or a leading `.` is the first component, and its text is the first segment
    let started := p.isAbsolute || p.segments.head? == some dotName
    let rest := if started then dropNamed (n - 1) p.segments.tail else dropNamed n p.segments
    ⟨join slash (trimEnd (rest.dropWhile isBlank))⟩

/-- The part of `p` below `base`, compared component by component. -/
def strip? (p base : Path) : Option Path :=
  if base.components.isPrefixOf p.components then some (p.afterComponents base.components.length)
  else none

def startsWith (p base : Path) : Bool :=
  base.components.isPrefixOf p.components

/-- One component met after the components `met`, the latest first: `.` is dropped, `..` takes back
a name, stays at the root, and is kept where nothing can be taken back. -/
def normalStep : List Component → Component → List Component
  | met, .current => met
  | .normal _ :: met, .parent => met
  | .root :: met, .parent => .root :: met
  | met, c => c :: met

def Component.text : Component → Name
  | .root => []
  | .current => dotName
  | .parent => dotDotName
  | .normal name => name

/-- The text of a list of components, one separator between two; none at all is `.`. -/
def ofComponents : List Component → Path
  | [] => ⟨dotName⟩
  | [.root] => ⟨[slash]⟩
  | cs => ⟨join slash (cs.map Component.text)⟩

/-- Resolves `.` and `..` by text alone. -/
def normalize (p : Path) : Path :=
  ofComponents (p.components.foldl normalStep []).reverse

end Path

end TreeArchive
