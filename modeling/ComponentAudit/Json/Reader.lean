import ComponentAudit.Json

set_option autoImplicit false

/-! # Reading JSON text

A recursive-descent reader over the characters of a text. Every function takes the characters
that are left and returns what it read with the characters after it, or `none` when the text
is not JSON. Values may be nested to any depth: the recursion is bounded by the length of the
text, since every level and every item takes at least one character.
-/

namespace ComponentAudit.Json

/-- Drops the white space that may stand between tokens. -/
def skipBlanks (cs : List Char) : List Char :=
  cs.dropWhile fun c => c == ' ' || c == '\n' || c == '\t' || c == '\r'

/-- The value of a hexadecimal digit. -/
def hexDigit? (c : Char) : Option Nat :=
  if '0' ≤ c ∧ c ≤ '9' then some (c.toNat - '0'.toNat)
  else if 'a' ≤ c ∧ c ≤ 'f' then some (c.toNat - 'a'.toNat + 10)
  else if 'A' ≤ c ∧ c ≤ 'F' then some (c.toNat - 'A'.toNat + 10)
  else none

/-- The number that four hexadecimal digits write. -/
def hexUnit? (a b c d : Char) : Option Nat := do
  return (((← hexDigit? a) * 16 + (← hexDigit? b)) * 16 + (← hexDigit? c)) * 16 + (← hexDigit? d)

/-- The character that a one-letter escape stands for. -/
def escape? : Char → Option Char
  | '"' => some '"'
  | '\\' => some '\\'
  | '/' => some '/'
  | 'b' => some (Char.ofNat 8)
  | 'f' => some (Char.ofNat 12)
  | 'n' => some '\n'
  | 'r' => some '\r'
  | 't' => some '\t'
  | _ => none

/-- Puts a character before a text, if the text is one. -/
def consChar (c : Char) : Option (List Char) × List Char → Option (List Char) × List Char
  | (s, rest) => (s.map (c :: ·), rest)

/-- The rest of a string after its opening quote, up to and with the closing one. The text is
`none` when an escape names half of a surrogate pair only. -/
def readChars : List Char → Option (Option (List Char) × List Char)
  | '"' :: rest => some (some [], rest)
  | '\\' :: 'u' :: a :: b :: c :: d :: '\\' :: 'u' :: e :: f :: g :: h :: rest => do
    let high ← hexUnit? a b c d
    if 0xD800 ≤ high ∧ high < 0xDC00 then
      let low ← hexUnit? e f g h
      if 0xDC00 ≤ low ∧ low < 0xE000 then
        let read ← readChars rest
        return consChar (Char.ofNat (0x10000 + (high - 0xD800) * 0x400 + (low - 0xDC00))) read
      else
        let read ← readChars ('\\' :: 'u' :: e :: f :: g :: h :: rest)
        return (none, read.2)
    else
      let read ← readChars ('\\' :: 'u' :: e :: f :: g :: h :: rest)
      return if 0xDC00 ≤ high ∧ high < 0xE000 then (none, read.2)
        else consChar (Char.ofNat high) read
  | '\\' :: 'u' :: a :: b :: c :: d :: rest => do
    let unit ← hexUnit? a b c d
    let read ← readChars rest
    return if 0xD800 ≤ unit ∧ unit < 0xE000 then (none, read.2) else consChar (Char.ofNat unit) read
  | '\\' :: c :: rest => do
    let plain ← escape? c
    let read ← readChars rest
    return consChar plain read
  | c :: rest => do
    if c == '\\' || c.toNat < 0x20 then none
    else return consChar c (← readChars rest)
  | [] => none

/-- The text of a string after its opening quote. -/
def readText (cs : List Char) : Option (Option String × List Char) :=
  (readChars cs).map fun (s, rest) => (s.map String.ofList, rest)

/-- Leaves out a fraction, if one starts here: whether there was one, and what follows. -/
def skipFraction : List Char → Option (Bool × List Char)
  | '.' :: c :: rest =>
    if c.isDigit then some (true, rest.dropWhile Char.isDigit) else none
  | ['.'] => none
  | cs => some (false, cs)

/-- Leaves out an exponent, if one starts here: whether there was one, and what follows. -/
def skipExponent : List Char → Option (Bool × List Char)
  | [] => some (false, [])
  | e :: rest =>
    if e == 'e' || e == 'E' then
      let digits := match rest with
        | '+' :: r => r
        | '-' :: r => r
        | r => r
      match digits with
      | c :: r => if c.isDigit then some (true, r.dropWhile Char.isDigit) else none
      | [] => none
    else some (false, e :: rest)

/-- A number without its sign. A leading zero stands alone. -/
def readUnsigned (negative : Bool) (cs : List Char) : Option (Json × List Char) := do
  let whole := cs.takeWhile Char.isDigit
  if whole.isEmpty || (whole.length > 1 && whole.head? == some '0') then none
  else
    let (fraction, rest) ← skipFraction (cs.dropWhile Char.isDigit)
    let (exponent, rest) ← skipExponent rest
    let value := whole.foldl (fun n c => 10 * n + (c.toNat - '0'.toNat)) 0
    if fraction || exponent || (negative && value == 0) then return (decimal, rest)
    else return (int (if negative then -(value : Int) else value), rest)

mutual

/-- One value, after white space. -/
def readValue : Nat → List Char → Option (Json × List Char)
  | 0, _ => none
  | depth + 1, cs =>
    match skipBlanks cs with
    | 'n' :: 'u' :: 'l' :: 'l' :: rest => some (null, rest)
    | 't' :: 'r' :: 'u' :: 'e' :: rest => some (bool true, rest)
    | 'f' :: 'a' :: 'l' :: 's' :: 'e' :: rest => some (bool false, rest)
    | '"' :: rest => (readText rest).map fun (s, rest) => (text s, rest)
    | '-' :: rest => readUnsigned true rest
    | '[' :: rest =>
      match skipBlanks rest with
      | ']' :: rest => some (array [], rest)
      | rest => (readItems depth rest).map fun (xs, rest) => (array xs, rest)
    | '{' :: rest =>
      match skipBlanks rest with
      | '}' :: rest => some (object [], rest)
      | rest => (readFields depth rest).map fun (fs, rest) => (object fs, rest)
    | rest => readUnsigned false rest

/-- The items of an array up to its end, of which at least one is left. -/
def readItems : Nat → List Char → Option (List Json × List Char)
  | 0, _ => none
  | depth + 1, cs => do
    let (item, rest) ← readValue depth cs
    match skipBlanks rest with
    | ',' :: rest =>
      let (items, rest) ← readItems depth rest
      return (item :: items, rest)
    | ']' :: rest => return ([item], rest)
    | _ => none

/-- The fields of an object up to its end, of which at least one is left. -/
def readFields : Nat → List Char → Option (List (Option String × Json) × List Char)
  | 0, _ => none
  | depth + 1, cs => do
    let (key, rest) ← match skipBlanks cs with
      | '"' :: rest => readText rest
      | _ => none
    let (value, rest) ← match skipBlanks rest with
      | ':' :: rest => readValue depth rest
      | _ => none
    match skipBlanks rest with
    | ',' :: rest =>
      let (fields, rest) ← readFields depth rest
      return ((key, value) :: fields, rest)
    | '}' :: rest => return ([(key, value)], rest)
    | _ => none

end

/-- The value that a text denotes: one value with nothing but white space around it. -/
def read? (s : String) : Option Json := do
  let cs := s.toList
  let (value, rest) ← readValue (2 * cs.length + 2) cs
  if (skipBlanks rest).isEmpty then return value else none

end ComponentAudit.Json
