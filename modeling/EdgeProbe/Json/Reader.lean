import EdgeProbe.Json.Value

/-!
# Reading JSON text

`Json.read?` accepts exactly one JSON value between blanks. Every step returns the characters it
leaves, and the nesting is followed with as much fuel as there are characters, of which each value,
item and member uses at least one.
-/

namespace EdgeProbe

namespace Json

/-- The four characters that may stand between tokens. -/
def isBlank (c : Char) : Bool :=
  c == ' ' || c == '\n' || c == '\r' || c == '\t'

def skipBlanks (cs : List Char) : List Char :=
  cs.dropWhile isBlank

def hexDigit? (c : Char) : Option Nat :=
  if '0' ≤ c ∧ c ≤ '9' then some (c.toNat - '0'.toNat)
  else if 'a' ≤ c ∧ c ≤ 'f' then some (c.toNat - 'a'.toNat + 10)
  else if 'A' ≤ c ∧ c ≤ 'F' then some (c.toNat - 'A'.toNat + 10)
  else none

/-- The code unit written by the four digits of a `u` escape. -/
def codeUnit? (a b c d : Char) : Option Nat := do
  return (((← hexDigit? a) * 16 + (← hexDigit? b)) * 16 + (← hexDigit? c)) * 16 + (← hexDigit? d)

def isHighSurrogate (unit : Nat) : Bool :=
  0xd800 ≤ unit && unit < 0xdc00

def isLowSurrogate (unit : Nat) : Bool :=
  0xdc00 ≤ unit && unit < 0xe000

/-- What has been read of a string literal: its characters, last first, a high surrogate that waits
for its partner, whether every surrogate so far has one, and whether there was an escape. -/
structure Literal where
  chars : List Char := []
  waiting : Option Nat := none
  paired : Bool := true
  escaped : Bool := false

namespace Literal

def pushChar (lit : Literal) (c : Char) : Literal :=
  { lit with chars := c :: lit.chars, waiting := none, paired := lit.paired && lit.waiting.isNone }

def pushEscape (lit : Literal) (c : Char) : Literal :=
  { lit.pushChar c with escaped := true }

def pushUnit (lit : Literal) (unit : Nat) : Literal :=
  if isHighSurrogate unit then
    ⟨lit.chars, some unit, lit.paired && lit.waiting.isNone, true⟩
  else if isLowSurrogate unit then
    match lit.waiting with
    | some high =>
      ⟨Char.ofNat (0x10000 + (high - 0xd800) * 0x400 + (unit - 0xdc00)) :: lit.chars, none,
        lit.paired, true⟩
    | none => ⟨lit.chars, none, false, true⟩
  else lit.pushEscape (Char.ofNat unit)

/-- The text of a finished literal, if it denotes one. -/
def text? (lit : Literal) : Option String :=
  if lit.paired && lit.waiting.isNone then some (String.ofList lit.chars.reverse) else none

def name? (lit : Literal) : Option Name :=
  lit.text?.map fun text => ⟨text, lit.escaped⟩

end Literal

/-- Reads the rest of a string literal up to its closing quote. -/
def readString : List Char → Literal → Option (Literal × List Char)
  | [], _ => none
  | '"' :: rest, lit => some (lit, rest)
  | '\\' :: '"' :: rest, lit => readString rest (lit.pushEscape '"')
  | '\\' :: '\\' :: rest, lit => readString rest (lit.pushEscape '\\')
  | '\\' :: '/' :: rest, lit => readString rest (lit.pushEscape '/')
  | '\\' :: 'b' :: rest, lit => readString rest (lit.pushEscape '\x08')
  | '\\' :: 'f' :: rest, lit => readString rest (lit.pushEscape '\x0c')
  | '\\' :: 'n' :: rest, lit => readString rest (lit.pushEscape '\n')
  | '\\' :: 'r' :: rest, lit => readString rest (lit.pushEscape '\r')
  | '\\' :: 't' :: rest, lit => readString rest (lit.pushEscape '\t')
  | '\\' :: 'u' :: a :: b :: c :: d :: rest, lit =>
    match codeUnit? a b c d with
    | some unit => readString rest (lit.pushUnit unit)
    | none => none
  | c :: rest, lit =>
    if c == '\\' || c.toNat < 0x20 then none else readString rest (lit.pushChar c)

/-- Splits off a run of digits, which must not be empty. -/
def digits? (cs : List Char) : Option (List Char × List Char) :=
  match cs.takeWhile Char.isDigit with
  | [] => none
  | run => some (run, cs.dropWhile Char.isDigit)

def fraction? : List Char → Option (List Char × List Char)
  | '.' :: rest => (digits? rest).map fun (run, rest) => ('.' :: run, rest)
  | rest => some ([], rest)

/-- Splits off an optional sign. -/
def exponentSign : List Char → List Char × List Char
  | '+' :: rest => (['+'], rest)
  | '-' :: rest => (['-'], rest)
  | rest => ([], rest)

def exponent? : List Char → Option (List Char × List Char)
  | c :: rest =>
    if c == 'e' || c == 'E' then
      let (sign, rest) := exponentSign rest
      (digits? rest).map fun (run, rest) => (c :: sign ++ run, rest)
    else some ([], c :: rest)
  | [] => some ([], [])

def natOfDigits (digits : List Char) : Nat :=
  digits.foldl (fun n c => n * 10 + (c.toNat - '0'.toNat)) 0

/-- Reads a number. The integer part has no superfluous leading zero. -/
def readNumber (cs : List Char) : Option (Json × List Char) := do
  let negative := cs.head? == some '-'
  let unsigned := if negative then cs.drop 1 else cs
  let (whole, rest) ← digits? unsigned
  if whole.head? == some '0' && whole.length > 1 then none
  let (fraction, rest) ← fraction? rest
  let (exponent, rest) ← exponent? rest
  let value := natOfDigits whole
  if fraction.isEmpty && exponent.isEmpty && !(negative && value == 0) then
    return (.int (if negative then -(value : Int) else value), rest)
  else
    let sign := if negative then ['-'] else []
    return (.real (String.ofList (sign ++ whole ++ fraction ++ exponent)), rest)

/-- An object of members some of whose names may denote no string. -/
def ofMembers (members : List (Option Name × Json)) : Json :=
  match members.mapM fun (name, value) => name.map (·, value) with
  | some members => .obj members
  | none => .unpaired

mutual

/-- Reads one value that starts at the first character. -/
def readValue : Nat → List Char → Option (Json × List Char)
  | 0, _ => none
  | fuel + 1, cs =>
    match cs with
    | 'n' :: 'u' :: 'l' :: 'l' :: rest => some (.null, rest)
    | 't' :: 'r' :: 'u' :: 'e' :: rest => some (.bool true, rest)
    | 'f' :: 'a' :: 'l' :: 's' :: 'e' :: rest => some (.bool false, rest)
    | '"' :: rest =>
      (readString rest {}).map fun (lit, rest) => ((lit.text?.map Json.str).getD .unpaired, rest)
    | '[' :: rest =>
      match skipBlanks rest with
      | ']' :: rest => some (.arr [], rest)
      | rest => readItems fuel rest []
    | '\x7b' :: rest =>
      match skipBlanks rest with
      | '\x7d' :: rest => some (.obj [], rest)
      | rest => readMembers fuel rest []
    | cs => readNumber cs

/-- Reads the items of an array up to its closing bracket. -/
def readItems : Nat → List Char → List Json → Option (Json × List Char)
  | 0, _, _ => none
  | fuel + 1, cs, items =>
    match readValue fuel cs with
    | none => none
    | some (item, rest) =>
      match skipBlanks rest with
      | ',' :: rest => readItems fuel (skipBlanks rest) (item :: items)
      | ']' :: rest => some (.arr (item :: items).reverse, rest)
      | _ => none

/-- Reads the members of an object up to its closing brace. -/
def readMembers : Nat → List Char → List (Option Name × Json) → Option (Json × List Char)
  | 0, _, _ => none
  | fuel + 1, cs, members =>
    match cs with
    | '"' :: rest =>
      match readString rest {} with
      | none => none
      | some (lit, rest) =>
        match skipBlanks rest with
        | ':' :: rest =>
          match readValue fuel (skipBlanks rest) with
          | none => none
          | some (value, rest) =>
            match skipBlanks rest with
            | ',' :: rest => readMembers fuel (skipBlanks rest) ((lit.name?, value) :: members)
            | '\x7d' :: rest => some (ofMembers ((lit.name?, value) :: members).reverse, rest)
            | _ => none
        | _ => none
    | _ => none

end

/-- The value that a text denotes. -/
def read? (text : String) : Option Json :=
  let cs := text.toList
  match readValue (cs.length + 1) (skipBlanks cs) with
  | some (value, rest) => if (skipBlanks rest).isEmpty then some value else none
  | none => none

end Json

end EdgeProbe
