import TreeArchive.Console.Format
import TreeArchive.Pack

/-!
How a run is followed: entry names are noted and shown as they start, and a spinner tells how far it
is. When the spinner is drawn, and with which of its marks, is up to a clock; what it says from one
event to the next is not.
-/
namespace TreeArchive.Console

/-- What a spinner says, or that it is taken from the screen. -/
inductive Display where
  | line (text : String)
  | cleared
deriving DecidableEq, Repr

namespace Display

/-- Clears the line, and writes the display there. -/
def drawn : Display → String
  | line text => "\r\x1b[2K⠋ " ++ text
  | cleared => "\r\x1b[2K"

/-- Draws every display over the one before it. -/
def redraw (displays : List Display) : String :=
  String.join (displays.map drawn)

end Display

structure Progress where
  style : Style
  names : List String
  completed : Nat
  /-- Bytes so far, added in 64 bits. -/
  bytes : Nat
  /-- What the spinner says of the entry that was started last. -/
  message : String
  stdout : String
  displays : List Display
  panic? : Option Panic

namespace Progress

def line (p : Progress) : String :=
  s!"Packaging {p.completed} files {p.message}"

def draw (p : Progress) : Progress :=
  { p with displays := p.displays ++ [.line p.line] }

def ofStyle (style : Style) : Progress :=
  draw ⟨style, [], 0, 0, "", "", [], none⟩

/-- The spinner shows a tab as eight blanks. -/
def messageOf (p : Progress) (name : RelativePath) : String :=
  let shown := name.chars.flatMap fun c => if c = '\t' then List.replicate 8 ' ' else [c]
  s!"({sizeText progressUnits p.bytes}) {String.ofList shown}"

def handle (p : Progress) : Event → Progress
  | .started name _ =>
    -- the spinner makes room for the name, and comes back before it says anything new
    let noted : Progress :=
      { p with
        names := p.names ++ [name.text]
        stdout := p.stdout ++ (p.style.entryOutput name.text).stdout
        displays := p.displays ++ [.cleared] }
    draw { draw noted with message := p.messageOf name }
  | .bytes count =>
    match Checked.add p.bytes count with
    | .ok bytes => { p with bytes := bytes }
    | .error panic => { p with panic? := some panic }
  | .completed _ => draw { p with completed := p.completed + 1 }
  | .finished => { p with displays := p.displays ++ [.cleared] }

/-- Follows a run up to a panic. -/
def handleAll (p : Progress) : List Event → Progress
  | [] => p
  | event :: rest => if p.panic?.isSome then p else (p.handle event).handleAll rest

/-- All that the spinner has shown; it leaves the screen as it was. -/
def ended (p : Progress) : List Display :=
  p.displays ++ [.cleared]

end Progress

end TreeArchive.Console
