import TreeArchive.Decimal.Shortest

/-!
JSON documents and their layout: two blanks a level, one item a line, escapes only where they are
due.
-/
namespace TreeArchive

open Decimal

inductive Json where
  | bool (value : Bool)
  | number (value : Nat)
  | real (value : Binary64)
  | text (value : String)
  | array (items : List Json)
  | object (fields : List (String × Json))
deriving Repr

namespace Json

def hexDigit (n : Nat) : Char :=
  if n < 10 then Char.ofNat (48 + n) else Char.ofNat (87 + n)

def escape (c : Char) : List Char :=
  if c = '"' then ['\\', '"']
  else if c = '\\' then ['\\', '\\']
  else if c = '\n' then ['\\', 'n']
  else if c = '\r' then ['\\', 'r']
  else if c = '\t' then ['\\', 't']
  else if c = '\x08' then ['\\', 'b']
  else if c = '\x0c' then ['\\', 'f']
  else if c.toNat < 0x20 then
    ['\\', 'u', '0', '0', hexDigit (c.toNat / 16), hexDigit (c.toNat % 16)]
  else [c]

def quoted (s : String) : List Char :=
  '"' :: (s.toList.flatMap escape ++ ['"'])

/-- Digits are written in place from `0.00001` up to sixteen of them before the point, and with an
exponent elsewhere; a whole number keeps `.0`. -/
def realText (x : Binary64) : List Char :=
  let d := x.shortest
  let count : Int := d.digits.length
  if d.digits.isEmpty then ['0', '.', '0']
  else if count ≤ d.point ∧ d.point ≤ 16 then
    d.digits ++ List.replicate (d.point - count).toNat '0' ++ ['.', '0']
  else if 0 < d.point ∧ d.point ≤ 16 then
    d.digits.take d.point.toNat ++ '.' :: d.digits.drop d.point.toNat
  else if -5 < d.point ∧ d.point ≤ 0 then
    '0' :: '.' :: List.replicate (-d.point).toNat '0' ++ d.digits
  else
    let power := d.point - 1
    let mark := if power < 0 then '-' else '+'
    let fraction := if d.digits.length = 1 then [] else '.' :: d.digits.tail
    d.digits.take 1 ++ fraction ++ 'e' :: mark :: digits power.natAbs

def newLine (depth : Nat) : List Char :=
  '\n' :: List.replicate (2 * depth) ' '

mutual

def layout (depth : Nat) : Json → List Char
  | .bool value => if value then "true".toList else "false".toList
  | .number value => digits value
  | .real value => realText value
  | .text value => quoted value
  | .array [] => ['[', ']']
  | .array (item :: items) =>
    '[' :: (newLine (depth + 1) ++ layout (depth + 1) item ++ layoutItems (depth + 1) items ++
      newLine depth ++ [']'])
  | .object [] => ['\x7b', '\x7d']
  | .object ((key, value) :: fields) =>
    '\x7b' :: (newLine (depth + 1) ++ quoted key ++ ':' :: ' ' :: layout (depth + 1) value ++
      layoutFields (depth + 1) fields ++ newLine depth ++ ['\x7d'])

def layoutItems (depth : Nat) : List Json → List Char
  | [] => []
  | item :: items => ',' :: (newLine depth ++ layout depth item ++ layoutItems depth items)

def layoutFields (depth : Nat) : List (String × Json) → List Char
  | [] => []
  | (key, value) :: fields =>
    ',' :: (newLine depth ++ quoted key ++ ':' :: ' ' :: layout depth value ++
      layoutFields depth fields)

end

def render (document : Json) : String :=
  String.ofList (layout 0 document)

end Json

end TreeArchive
