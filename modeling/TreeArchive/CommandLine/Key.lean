import TreeArchive.Path

/-! The keys of the command line: flags, and parameters that take a value, with their spellings. -/
namespace TreeArchive.CommandLine

/-- A word of the command line, as bytes. -/
abbrev Word := List UInt8

def word (text : String) : Word :=
  Text.Utf8.encode text.toList

def dash : UInt8 := 0x2D

def equalsSign : UInt8 := 0x3D

inductive Flag where
  | noDefaultExcludes
  | followLinks
  | noSort
  | ignoreCase
  | matchCase
  | dryRun
  | verbose
  | quiet
  | json
deriving DecidableEq, Repr

inductive Parameter where
  | root
  | output
  | name
  | exclude
  | level
deriving DecidableEq, Repr

inductive Key where
  | flag (f : Flag)
  | parameter (p : Parameter)
  | help
  | version
deriving DecidableEq, Repr

structure Spelling where
  long : String
  short : Option Char
  key : Key
deriving DecidableEq, Repr

def spellings : List Spelling :=
  [⟨"root", some 'r', .parameter .root⟩,
   ⟨"output", some 'o', .parameter .output⟩,
   ⟨"name", some 'n', .parameter .name⟩,
   ⟨"exclude", some 'x', .parameter .exclude⟩,
   ⟨"no-default-excludes", none, .flag .noDefaultExcludes⟩,
   ⟨"compression-level", some 'l', .parameter .level⟩,
   ⟨"follow-symlinks", none, .flag .followLinks⟩,
   ⟨"no-sort", none, .flag .noSort⟩,
   ⟨"case-insensitive", none, .flag .ignoreCase⟩,
   ⟨"case-sensitive", none, .flag .matchCase⟩,
   ⟨"dry-run", none, .flag .dryRun⟩,
   ⟨"verbose", some 'v', .flag .verbose⟩,
   ⟨"quiet", some 'q', .flag .quiet⟩,
   ⟨"json", some 'j', .flag .json⟩,
   ⟨"help", some 'h', .help⟩,
   ⟨"version", some 'V', .version⟩]

/-- The key behind two dashes; no name may be cut short. -/
def Key.ofLong? (name : Word) : Option Key :=
  (spellings.find? fun s => word s.long == name).map (·.key)

/-- The key behind one dash. -/
def Key.ofShort? (letter : UInt8) : Option Key :=
  (spellings.find? fun s => s.short.any fun c => Text.Utf8.encodeChar c == [letter]).map (·.key)

end TreeArchive.CommandLine
