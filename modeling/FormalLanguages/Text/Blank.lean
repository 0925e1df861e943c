/-!
Blank characters, those with the Unicode property White_Space, and texts with the blanks at
both ends removed.
-/

namespace FormalLanguages.Text

/-- The code points with the property White_Space, as inclusive ranges. -/
def blankRanges : List (Nat × Nat) :=
  [(0x09, 0x0D), (0x20, 0x20), (0x85, 0x85), (0xA0, 0xA0), (0x1680, 0x1680), (0x2000, 0x200A),
    (0x2028, 0x2029), (0x202F, 0x202F), (0x205F, 0x205F), (0x3000, 0x3000)]

def isBlank (c : Char) : Bool :=
  blankRanges.any fun range => range.1 ≤ c.toNat && c.toNat ≤ range.2

/-- The 25 blank code points, counted over the ranges. -/
example : (blankRanges.map fun range => range.2 + 1 - range.1).sum = 25 := by decide

def trimStart (text : List Char) : List Char :=
  text.dropWhile isBlank

def trimEnd (text : List Char) : List Char :=
  (text.reverse.dropWhile isBlank).reverse

/-- The text without the blanks before its first and after its last other character. -/
def trim (text : List Char) : List Char :=
  trimEnd (trimStart text)

@[simp] theorem trim_nil : trim [] = [] := rfl

end FormalLanguages.Text
