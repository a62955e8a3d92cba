set_option autoImplicit false

/-! # Blank text

The characters that count as white space, after the Unicode property of that name, and the
texts that consist of nothing else. A framework name may not be blank.
-/

namespace ComponentAudit.Text

/-- The ranges of code points, both ends included, that count as white space. -/
def blankRanges : List (Nat × Nat) :=
  [(0x09, 0x0D), (0x20, 0x20), (0x85, 0x85), (0xA0, 0xA0), (0x1680, 0x1680), (0x2000, 0x200A),
   (0x2028, 0x2029), (0x202F, 0x202F), (0x205F, 0x205F), (0x3000, 0x3000)]

/-- Whether a character counts as white space. -/
def isBlankChar (c : Char) : Bool :=
  blankRanges.any fun (lo, hi) => lo ≤ c.toNat && c.toNat ≤ hi

/-- Whether a text holds white space only; the empty text does. -/
def isBlank (s : String) : Bool :=
  s.toList.all isBlankChar

end ComponentAudit.Text
