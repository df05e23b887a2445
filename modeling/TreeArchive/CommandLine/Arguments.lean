import TreeArchive.CommandLine.Key
import TreeArchive.Settings

/-!
What a command line says. Words are read from the left; the value of a parameter is checked when the
next key or operand comes, or at the end, so that of two faults an unknown word is told first.
-/
namespace TreeArchive.CommandLine

/-- A value is for a parameter or is the operand, the source directory. -/
inductive Target where
  | parameter (p : Parameter)
  | source
deriving DecidableEq, Repr

/-- Why a command line asks for no run. -/
inductive Stop where
  | help
  | version
  | unknown (word : Word)
  | missingValue (target : Target)
  | unneededValue (key : Key)
  | repeated (key : Key)
  | conflict (a b : Key)
  | notText (p : Parameter)
  | badLevel (value : Word)
deriving DecidableEq, Repr

structure Arguments where
  source : Option Path
  root : Option Path
  output : Option Path
  name : Option String
  excludes : List String
  level : Option { level : UInt8 // Settings.isLevel level = true }
  flags : List Flag
deriving DecidableEq

namespace Arguments

def empty : Arguments := ⟨none, none, none, none, [], none, []⟩

def has (a : Arguments) (f : Flag) : Bool :=
  a.flags.contains f

/-- Whether a parameter has its one value. -/
def isFull (a : Arguments) : Target → Bool
  | .source => a.source.isSome
  | .parameter .root => a.root.isSome
  | .parameter .output => a.output.isSome
  | .parameter .name => a.name.isSome
  | .parameter .exclude => false
  | .parameter .level => a.level.isSome

end Arguments

def readPath (target : Target) (value : Word) : Except Stop Path :=
  if value.isEmpty then .error (.missingValue target) else .ok ⟨value⟩

def readText (p : Parameter) (value : Word) : Except Stop String :=
  match Text.Utf8.decode? value with
  | some text => .ok (String.ofList text)
  | none => .error (.notText p)

/-- A decimal number, with a plus sign or without. -/
def readNumber? (text : String) : Option Nat :=
  let digits := match text.toList with
    | '+' :: rest => rest
    | all => all
  if digits.isEmpty || !digits.all Char.isDigit then none
  else some (digits.foldl (fun n c => 10 * n + (c.toNat - '0'.toNat)) 0)

def readLevel (value : Word) :
    Except Stop { level : UInt8 // Settings.isLevel level = true } := do
  match readNumber? (← readText .level value) with
  | none => .error (.badLevel value)
  | some n =>
    if h : n < 256 ∧ Settings.isLevel n.toUInt8 = true then .ok ⟨n.toUInt8, h.2⟩
    else .error (.badLevel value)

/-- Gives a target its value. -/
def Arguments.assign (a : Arguments) (value : Word) : Target → Except Stop Arguments
  | .source => return { a with source := some (← readPath .source value) }
  | .parameter .root => return { a with root := some (← readPath (.parameter .root) value) }
  | .parameter .output => return { a with output := some (← readPath (.parameter .output) value) }
  | .parameter .name => return { a with name := some (← readText .name value) }
  | .parameter .exclude => return { a with excludes := a.excludes ++ [← readText .exclude value] }
  | .parameter .level => return { a with level := some (← readLevel value) }

/-- A target whose value has come but is not checked, or has not come yet. -/
structure Pending where
  target : Target
  value : Option Word
deriving DecidableEq, Repr

structure Reading where
  arguments : Arguments
  pending : Option Pending

namespace Reading

def start : Reading := ⟨.empty, none⟩

/-- A parameter that takes one value and has it gets no other. -/
def refuseRepeated (a : Arguments) (target : Target) : Except Stop Unit :=
  match target with
  | .parameter p => if a.isFull target then .error (.repeated (.parameter p)) else .ok ()
  | .source => .ok ()

/-- Checks the pending value and takes it over. -/
def settle (r : Reading) : Except Stop Reading :=
  match r.pending with
  | none => .ok r
  | some ⟨target, none⟩ => .error (.missingValue target)
  | some ⟨target, some value⟩ => do
    refuseRepeated r.arguments target
    .ok ⟨← r.arguments.assign value target, none⟩

def setFlag (r : Reading) (f : Flag) : Except Stop Reading := do
  let r ← r.settle
  if r.arguments.has f then .error (.repeated (.flag f))
  else .ok { r with arguments := { r.arguments with flags := r.arguments.flags ++ [f] } }

/-- A parameter, with its value where that is in the same word. -/
def setParameter (r : Reading) (p : Parameter) (value : Option Word) : Except Stop Reading := do
  let r ← r.settle
  -- a value in the same word is checked at once, one in the next word when that is known
  let r : Reading := { r with pending := some ⟨.parameter p, value⟩ }
  if value.isSome then r.settle else .ok r

/-- The two requests that end the reading. -/
def stop (r : Reading) (request : Stop) : Except Stop Reading := do
  let _ ← r.settle
  .error request

/-- A word behind two dashes, cut at its first equals sign. -/
def long (r : Reading) (body : Word) : Except Stop Reading :=
  let name := body.takeWhile (· != equalsSign)
  let value := if name.length = body.length then none else some (body.drop (name.length + 1))
  match Key.ofLong? name, value with
  -- an unknown name is told before any fault of the value that is pending
  | none, _ => .error (.unknown body)
  | some (.parameter p), value => r.setParameter p value
  | some key, some _ => .error (.unneededValue key)
  | some (.flag f), none => r.setFlag f
  | some .help, none => r.stop .help
  | some .version, none => r.stop .version

/-- Letters behind one dash: flags, and at the end a parameter with the rest as its value, if there
is a rest. An equals sign may stand between. -/
def short (r : Reading) : Word → Except Stop Reading
  | [] => .ok r
  | letter :: rest =>
    match Key.ofShort? letter with
    | none => .error (.unknown [letter])
    | some (.flag f) => do (← r.setFlag f).short rest
    | some .help => r.stop .help
    | some .version => r.stop .version
    | some (.parameter p) =>
      match rest with
      | [] => r.setParameter p none
      | b :: value => r.setParameter p (some (if b = equalsSign then value else b :: value))

/-- The operand; there is at most one. -/
def operand (r : Reading) (value : Word) : Except Stop Reading := do
  if r.arguments.isFull .source || r.pending.any (·.target == .source) then .error (.unknown value)
  .ok { ← r.settle with pending := some ⟨.source, some value⟩ }

/-- A word that is no key: the value that is awaited, or the operand. -/
def plain (r : Reading) (value : Word) : Except Stop Reading :=
  match r.pending with
  | some ⟨target, none⟩ => .ok { r with pending := some ⟨target, some value⟩ }
  | _ => r.operand value

/-- A word before any lone `--`. -/
def word (r : Reading) : Word → Except Stop Reading
  | [] => r.plain []
  | [b] => r.plain [b]
  | b :: c :: rest =>
    if b = dash then if c = dash then r.long rest else r.short (c :: rest)
    else r.plain (b :: c :: rest)

/-- Reads words; behind a lone `--` all of them are operands. -/
def words (r : Reading) : Bool → List Word → Except Stop Reading
  | _, [] => r.settle
  | true, w :: rest => do (← r.operand w).words true rest
  | false, w :: rest =>
    if w = [dash, dash] then r.words true rest else do (← r.word w).words false rest

end Reading

namespace Arguments

/-- Two keys that exclude each other are both given. -/
def conflict? (a : Arguments) : Option (Key × Key) :=
  if a.has .quiet && a.has .verbose then some (.flag .quiet, .flag .verbose)
  else if a.output.isSome && a.name.isSome then some (.parameter .output, .parameter .name)
  else if a.has .ignoreCase && a.has .matchCase then some (.flag .ignoreCase, .flag .matchCase)
  else none

def parse (words : List Word) : Except Stop Arguments := do
  let r ← Reading.start.words false words
  match r.arguments.conflict? with
  | some (a, b) => .error (.conflict a b)
  | none => .ok r.arguments

/-- What the case flags say, if they say anything. -/
def matchesCase? (a : Arguments) : Option Bool :=
  if a.has .ignoreCase then some false
  else if a.has .matchCase then some true
  else none

/-- A path as seen from the current directory, in normal form. -/
def place (here path : Path) : Path :=
  (here.append path).normalize

/-- The excludes that were given, or else the default ones unless those are switched off. -/
def excludePatterns (a : Arguments) (defaults : List String) : List String :=
  if !a.excludes.isEmpty then a.excludes
  else if a.has .noDefaultExcludes then []
  else defaults

/-- The run that the arguments ask for in the directory `here`. -/
def settings (a : Arguments) (here : Path) : Settings :=
  let root := (a.root.map (place here)).getD here.normalize
  let base := Settings.forRoot root
  { base with
    source := (a.source.map (place here)).getD root
    output := (a.output.map (place here)).getD (Settings.defaultOutput root a.name)
    excludes := a.excludePatterns base.excludes
    caseSensitive := a.matchesCase?.getD true
    followLinks := a.has .followLinks
    sorted := !a.has .noSort
    level := (a.level.map Subtype.val).getD base.level }

end Arguments

end TreeArchive.CommandLine
