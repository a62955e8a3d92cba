set_option autoImplicit false

/-! # Numerals

Which texts are whole numbers of 64 bits and which are decimal numbers. Both may carry one
sign. A decimal number has digits on at least one side of an optional point and an optional
exponent, or is one of the words for the infinite and undefined values.
-/

namespace ComponentAudit.Text

/-- The text without the sign it may start with, and whether that sign was a minus. -/
def splitSign : List Char → Bool × List Char
  | '-' :: rest => (true, rest)
  | '+' :: rest => (false, rest)
  | cs => (false, cs)

/-- The value of a row of decimal digits. -/
def digitsValue (cs : List Char) : Nat :=
  cs.foldl (fun n c => 10 * n + (c.toNat - '0'.toNat)) 0

/-- At least one character, and all of them decimal digits. -/
def isDigits (cs : List Char) : Bool :=
  !cs.isEmpty && cs.all Char.isDigit

/-- Whether a text is a whole number that fits in 64 bits with a sign. -/
def isInteger (s : String) : Bool :=
  let (negative, digits) := splitSign s.toList
  isDigits digits && digitsValue digits < Nat.pow 2 63 + (if negative then 1 else 0)

/-- What may follow the digits of a decimal number: nothing, or a mark and a whole exponent. -/
def isExponent : List Char → Bool
  | [] => true
  | e :: rest => (e == 'e' || e == 'E') && isDigits (splitSign rest).2

/-- Digits with an optional point among or around them, then an optional exponent. -/
def isPlainDecimal (cs : List Char) : Bool :=
  let whole := cs.takeWhile Char.isDigit
  match cs.dropWhile Char.isDigit with
  | '.' :: rest =>
    !(whole.isEmpty && (rest.takeWhile Char.isDigit).isEmpty) &&
      isExponent (rest.dropWhile Char.isDigit)
  | rest => !whole.isEmpty && isExponent rest

/-- The words for values that are no finite number, in lower case. -/
def valueWords : List String := ["inf", "infinity", "nan"]

/-- Whether a text is a decimal number. -/
def isDecimal (s : String) : Bool :=
  let body := (splitSign s.toList).2
  valueWords.contains (String.ofList (body.map Char.toLower)) || isPlainDecimal body

end ComponentAudit.Text
