import Mathlib
import TreeArchive.Json

/-!
Reading JSON texts. The reader goes by the grammar of the format alone, so that what it makes of a
rendered document says what any reader gets.
-/
namespace TreeArchive.Json

/-- What a text says. A number without sign, point and exponent is known by its value, any other by
its text. -/
inductive Value where
  | null
  | bool (value : Bool)
  | whole (value : Nat)
  | numeral (text : String)
  | text (value : String)
  | array (items : List Value)
  | object (fields : List (String × Value))

/-- The value of the first field of that name. -/
def Value.field? (name : String) : Value → Option Value
  | .object fields => fields.lookup name
  | _ => none

def isBlank (c : Char) : Bool :=
  c == ' ' || c == '\n' || c == '\r' || c == '\t'

def skipBlanks (input : List Char) : List Char :=
  input.dropWhile isBlank

/-! Texts between quotes. -/

def hexValue? (c : Char) : Option Nat :=
  if c.isDigit then some (c.toNat - '0'.toNat)
  else if 'a' ≤ c ∧ c ≤ 'f' then some (c.toNat - 'a'.toNat + 10)
  else if 'A' ≤ c ∧ c ≤ 'F' then some (c.toNat - 'A'.toNat + 10)
  else none

/-- The code unit that hexadecimal digits stand for. -/
def codeUnit? (digits : List Char) : Option Nat :=
  digits.foldlM (fun n c => (hexValue? c).map (16 * n + ·)) 0

def isSurrogate (unit : Nat) : Bool :=
  0xD800 ≤ unit && unit < 0xE000

/-- The character beyond the basic plane that two surrogates stand for. -/
def ofSurrogates? (high low : Nat) : Option Char :=
  if high < 0xDC00 ∧ 0xDC00 ≤ low ∧ low < 0xE000 then
    some (Char.ofNat (0x10000 + (high - 0xD800) * 0x400 + (low - 0xDC00)))
  else none

/-- The character behind a backslash, where it is one letter. -/
def unescape? : Char → Option Char
  | '"' => some '"'
  | '\\' => some '\\'
  | '/' => some '/'
  | 'b' => some '\x08'
  | 'f' => some '\x0c'
  | 'n' => some '\n'
  | 'r' => some '\r'
  | 't' => some '\t'
  | _ => none

/-- A character in front of what has been read. -/
def cons? (c : Char) (read : Option (List Char × List Char)) : Option (List Char × List Char) :=
  read.map fun (chars, rest) => (c :: chars, rest)

/-- The text up to the closing quote, and what stands behind it. -/
def readText : List Char → Option (List Char × List Char)
  | [] => none
  | '"' :: rest => some ([], rest)
  | '\\' :: 'u' :: a :: b :: c :: d :: rest =>
    match codeUnit? [a, b, c, d] with
    | none => none
    | some unit =>
      if isSurrogate unit then
        match rest with
        | '\\' :: 'u' :: a :: b :: c :: d :: rest =>
          match (codeUnit? [a, b, c, d]).bind (ofSurrogates? unit) with
          | none => none
          | some c => cons? c (readText rest)
        | _ => none
      else cons? (Char.ofNat unit) (readText rest)
  | '\\' :: letter :: rest =>
    match unescape? letter with
    | none => none
    | some c => cons? c (readText rest)
  | c :: rest => if c.toNat < 0x20 then none else cons? c (readText rest)

/-! Numbers. -/

def isDigits (input : List Char) : Bool :=
  !input.isEmpty && input.all Char.isDigit

/-- Digits, the first of several not zero. -/
def isWhole (input : List Char) : Bool :=
  isDigits input && (input == ['0'] || input.head? != some '0')

def dropMinus : List Char → List Char
  | '-' :: rest => rest
  | rest => rest

/-- An exponent may have a plus sign as well as a minus sign. -/
def dropSign : List Char → List Char
  | '+' :: rest => rest
  | rest => dropMinus rest

/-- An exponent, or nothing. -/
def isExponent : List Char → Bool
  | [] => true
  | mark :: rest => (mark == 'e' || mark == 'E') && isDigits (dropSign rest)

/-- A fraction and an exponent, or one of them, or nothing. -/
def isFraction : List Char → Bool
  | '.' :: rest =>
    !(rest.takeWhile Char.isDigit).isEmpty && isExponent (rest.dropWhile Char.isDigit)
  | rest => isExponent rest

def isNumber (input : List Char) : Bool :=
  isWhole ((dropMinus input).takeWhile Char.isDigit) &&
    isFraction ((dropMinus input).dropWhile Char.isDigit)

/-- The characters that numbers are written with; none of them can follow a number. -/
def isNumberChar (c : Char) : Bool :=
  c.isDigit || c == '-' || c == '+' || c == '.' || c == 'e' || c == 'E'

def ofNumber (input : List Char) : Value :=
  if input.all Char.isDigit then .whole (Nat.ofDigitChars 10 input 0)
  else .numeral (String.ofList input)

def readNumber (input : List Char) : Option (Value × List Char) :=
  let number := input.takeWhile isNumberChar
  if isNumber number then some (ofNumber number, input.dropWhile isNumberChar) else none

/-! Values. -/

def readWord (word : String) (value : Value) (input : List Char) : Option (Value × List Char) :=
  if word.toList.isPrefixOf input then some (value, input.drop word.length) else none

mutual

/-- The value at the start of a text, and what stands behind it. -/
def readValue : Nat → List Char → Option (Value × List Char)
  | 0, _ => none
  | fuel + 1, input =>
    match skipBlanks input with
    | [] => none
    | c :: rest =>
      if c = '"' then (readText rest).map fun (chars, rest) => (.text (String.ofList chars), rest)
      else if c = '[' then
        match skipBlanks rest with
        | ']' :: rest => some (.array [], rest)
        | rest => (readItems fuel rest).map fun (items, rest) => (.array items, rest)
      else if c = '\x7b' then
        match skipBlanks rest with
        | '\x7d' :: rest => some (.object [], rest)
        | rest => (readFields fuel rest).map fun (fields, rest) => (.object fields, rest)
      else if c = 't' then readWord "rue" (.bool true) rest
      else if c = 'f' then readWord "alse" (.bool false) rest
      else if c = 'n' then readWord "ull" .null rest
      else readNumber (c :: rest)

/-- The items of an array up to its closing bracket. -/
def readItems : Nat → List Char → Option (List Value × List Char)
  | 0, _ => none
  | fuel + 1, input => do
    let (item, rest) ← readValue fuel input
    match skipBlanks rest with
    | ',' :: rest => (readItems fuel rest).map fun (items, rest) => (item :: items, rest)
    | ']' :: rest => some ([item], rest)
    | _ => none

/-- The fields of an object up to its closing brace. -/
def readFields : Nat → List Char → Option (List (String × Value) × List Char)
  | 0, _ => none
  | fuel + 1, input =>
    match skipBlanks input with
    | '"' :: rest => do
      let (name, rest) ← readText rest
      match skipBlanks rest with
      | ':' :: rest => do
        let (value, rest) ← readValue fuel rest
        let field := (String.ofList name, value)
        match skipBlanks rest with
        | ',' :: rest => (readFields fuel rest).map fun (fields, rest) => (field :: fields, rest)
        | '\x7d' :: rest => some ([field], rest)
        | _ => none
      | _ => none
    | _ => none

end

/-- The value that a whole text says, if it is a JSON text. No part of it is read twice, so there
are no more values in it than characters. -/
def read? (text : String) : Option Value :=
  match readValue (text.length + 1) text.toList with
  | some (value, rest) => if (skipBlanks rest).isEmpty then some value else none
  | none => none

/-! What is written between quotes is read back. -/

theorem hexValue?_hexDigit {n : Nat} (h : n < 16) : hexValue? (hexDigit n) = some n := by
  have hall : ∀ n < 16, hexValue? (hexDigit n) = some n := by decide
  exact hall n h

theorem readText_plain {c : Char} {rest : List Char} (hquote : c ≠ '"') (hslash : c ≠ '\\')
    (hcontrol : ¬c.toNat < 0x20) : readText (c :: rest) = cons? c (readText rest) := by
  rw [readText, if_neg hcontrol]
  · exact hquote
  · rintro _ _ _ _ _ rfl
    exact absurd rfl hslash
  · rintro _ _ rfl
    exact absurd rfl hslash

/-- A character is read back from what is written for it. -/
theorem readText_escape (c : Char) (rest : List Char) :
    readText (escape c ++ rest) = cons? c (readText rest) := by
  have hletter {letter c : Char} (hu : letter ≠ 'u') (hc : unescape? letter = some c) :
      readText ('\\' :: letter :: rest) = cons? c (readText rest) := by
    rw [readText, hc]
    rintro _ _ _ _ _ rfl
    exact absurd rfl hu
  unfold escape
  repeat' split
  iterate 7
    next =>
      subst c
      exact hletter (by decide) rfl
  · -- a control character has two digits to it
    rename_i hcontrol
    have hhigh := hexValue?_hexDigit (n := c.toNat / 16) (by omega)
    have hlow := hexValue?_hexDigit (n := c.toNat % 16) (by omega)
    have hunit : codeUnit? ['0', '0', hexDigit (c.toNat / 16), hexDigit (c.toNat % 16)] =
        some c.toNat := by
      have hzero : hexValue? '0' = some 0 := rfl
      simp only [codeUnit?, List.foldlM_cons, List.foldlM_nil, hzero, hhigh, hlow, Option.map_some,
        Option.bind_eq_bind, Option.bind_some, Option.pure_def, Option.some.injEq]
      omega
    have hplain : isSurrogate c.toNat = false := by
      simp only [isSurrogate, Bool.and_eq_false_iff, decide_eq_false_iff_not]
      omega
    change readText ('\\' :: 'u' :: '0' :: '0' :: hexDigit (c.toNat / 16) ::
      hexDigit (c.toNat % 16) :: rest) = _
    rw [readText]
    simp only [hunit, hplain, Bool.false_eq_true, if_false, Char.ofNat_toNat]
  · rename_i hquote hslash _ _ _ _ _ hcontrol
    exact readText_plain hquote hslash hcontrol

theorem readText_quoted (s : String) (rest : List Char) :
    readText (s.toList.flatMap escape ++ '"' :: rest) = some (s.toList, rest) := by
  induction s.toList with
  | nil => rfl
  | cons c cs ih =>
    rw [List.flatMap_cons, List.append_assoc, readText_escape, ih]
    rfl

end TreeArchive.Json
