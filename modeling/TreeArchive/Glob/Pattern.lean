import TreeArchive.Glob.Match
import TreeArchive.RelativePath
import TreeArchive.Text.Lowercase

/-!
Exclusion patterns. A pattern is compared with a relative path component by component from the
right; one that starts with a separator must match every component.
-/
namespace TreeArchive

open Text

structure Pattern where
  source : String
  anchored : Bool
  caseSensitive : Bool
  segments : List (List Glob.Token)
deriving DecidableEq, Repr

namespace Pattern

/-- The text that is compared: as it is, or in lower case. -/
def fold (caseSensitive : Bool) (text : List Char) : List Char :=
  if caseSensitive then text else lowercase text

def parts (text : List Char) : List (List Char) :=
  (pieces RelativePath.isSeparator text).filter fun part => !part.isEmpty && part != ['.']

def compile (text : String) (caseSensitive : Bool) : Except Failure Pattern :=
  let chars := text.toList
  if chars.isEmpty then .error (.invalidPattern text .emptyText)
  else
    let segments := (parts (fold caseSensitive chars)).map Glob.compile
    if segments.isEmpty then .error (.invalidPattern text .noComponents)
    else .ok ⟨text, chars.head?.any RelativePath.isSeparator, caseSensitive, segments⟩

def admits (p : Pattern) (r : RelativePath) : Bool :=
  let components := pieces (· == '/') (fold p.caseSensitive r.chars)
  (if p.anchored then components.length == p.segments.length
    else p.segments.length ≤ components.length) &&
  (p.segments.reverse.zip components.reverse).all fun (segment, component) =>
    Glob.matchesAll segment component

end Pattern

/-- Patterns in the order given; a path is excluded when any of them matches it. -/
structure Exclusions where
  patterns : List Pattern
deriving DecidableEq, Repr

namespace Exclusions

/-- Compiles every pattern; the first that cannot be compiled is the failure. -/
def compile (texts : List String) (caseSensitive : Bool) : Except Failure Exclusions :=
  Exclusions.mk <$> texts.mapM (Pattern.compile · caseSensitive)

def firstMatch? (e : Exclusions) (r : RelativePath) : Option String :=
  (e.patterns.find? (·.admits r)).map Pattern.source

def excludes (e : Exclusions) (r : RelativePath) : Bool :=
  (e.firstMatch? r).isSome

end Exclusions

end TreeArchive
