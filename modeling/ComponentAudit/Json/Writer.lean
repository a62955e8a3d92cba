import ComponentAudit.Json

set_option autoImplicit false

/-! # Writing JSON text

Values as text on one line, without white space. Characters are written as they are, except
the quote, the backslash and the control characters, which are escaped.
-/

namespace ComponentAudit.Json

/-- A hexadecimal digit. -/
def hexChar (n : Nat) : Char :=
  if n < 10 then Char.ofNat ('0'.toNat + n) else Char.ofNat ('a'.toNat + (n - 10))

/-- A character as it stands inside a string. -/
def writeChar (c : Char) : List Char :=
  if c == '"' || c == '\\' then ['\\', c]
  else if c == '\n' then ['\\', 'n']
  else if c == '\r' then ['\\', 'r']
  else if c == '\t' then ['\\', 't']
  else if c.toNat < 0x20 then ['\\', 'u', '0', '0', hexChar (c.toNat / 16), hexChar (c.toNat % 16)]
  else [c]

/-- A text between quotes. -/
def writeText (s : String) : String :=
  "\"" ++ String.ofList (s.toList.flatMap writeChar) ++ "\""

mutual

/-- A value as text. A number of unknown value is written as zero, and a string that denotes
no text as the empty one. -/
def write : Json → String
  | null => "null"
  | bool true => "true"
  | bool false => "false"
  | int n => toString n
  | decimal => "0"
  | text s => writeText (s.getD "")
  | array xs => "[" ++ ",".intercalate (writeItems xs) ++ "]"
  | object fs => "\x7b" ++ ",".intercalate (writeFields fs) ++ "\x7d"

/-- The items of an array as texts. -/
def writeItems : List Json → List String
  | [] => []
  | x :: xs => write x :: writeItems xs

/-- The fields of an object as texts. -/
def writeFields : List (Option String × Json) → List String
  | [] => []
  | (key, value) :: fs => (writeText (key.getD "") ++ ":" ++ write value) :: writeFields fs

end

end ComponentAudit.Json
