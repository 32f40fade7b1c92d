import EdgeProbe.Json.Value
import EdgeProbe.Text.Hex

/-!
# Writing JSON text

Two layouts of one value: `Json.compact`, without any blank, and `Json.pretty`, one item or member
a line with two blanks for each level. Strings are written alike in both: quotes, backslashes and
control characters are escaped and all else stands for itself.
-/

namespace EdgeProbe

namespace Json

def escapeChar (c : Char) : List Char :=
  if c == '"' then ['\\', '"']
  else if c == '\\' then ['\\', '\\']
  else if c == '\x08' then ['\\', 'b']
  else if c == '\x0c' then ['\\', 'f']
  else if c == '\n' then ['\\', 'n']
  else if c == '\r' then ['\\', 'r']
  else if c == '\t' then ['\\', 't']
  else if c.toNat < 0x20 then
    ['\\', 'u', '0', '0', Text.hexDigit (c.toNat / 16), Text.hexDigit (c.toNat % 16)]
  else [c]

def quote (text : String) : String :=
  "\"" ++ String.ofList (text.toList.flatMap escapeChar) ++ "\""

/-- The text of a value that holds no others. -/
def leaf : Json → String
  | .bool true => "true"
  | .bool false => "false"
  | .int value => toString value
  | .real token => token
  | .str text => quote text
  | _ => "null"

mutual

def compact : Json → String
  | .arr items => "[" ++ String.intercalate "," (compactItems items) ++ "]"
  | .obj members => "\x7b" ++ String.intercalate "," (compactMembers members) ++ "\x7d"
  | value => leaf value

def compactItems : List Json → List String
  | [] => []
  | item :: rest => compact item :: compactItems rest

def compactMembers : List (Name × Json) → List String
  | [] => []
  | (name, value) :: rest => (quote name.text ++ ":" ++ compact value) :: compactMembers rest

end

/-- A line break followed by the indentation of a level. -/
def newline (level : Nat) : String :=
  "\n" ++ String.ofList (List.replicate (2 * level) ' ')

/-- The lines of a container between its brackets, which close on a line of their own. -/
def block (level : Nat) (lines : List String) : String :=
  newline (level + 1) ++ String.intercalate ("," ++ newline (level + 1)) lines ++ newline level

mutual

def prettyAt (level : Nat) : Json → String
  | .arr [] => "[]"
  | .arr items => "[" ++ block level (prettyItems (level + 1) items) ++ "]"
  | .obj [] => "\x7b\x7d"
  | .obj members => "\x7b" ++ block level (prettyMembers (level + 1) members) ++ "\x7d"
  | value => leaf value

def prettyItems (level : Nat) : List Json → List String
  | [] => []
  | item :: rest => prettyAt level item :: prettyItems level rest

def prettyMembers (level : Nat) : List (Name × Json) → List String
  | [] => []
  | (name, value) :: rest =>
    (quote name.text ++ ": " ++ prettyAt level value) :: prettyMembers level rest

end

def pretty (value : Json) : String :=
  prettyAt 0 value

end Json

end EdgeProbe
