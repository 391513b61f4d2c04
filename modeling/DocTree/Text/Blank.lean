/-!
Blank characters. A character is blank when it has the Unicode property *White_Space*, which 25
characters have; trimming drops the blank characters at both ends and nothing else.
-/

namespace DocTree.Text

/-- The closed code point ranges of the property *White_Space*, in ascending order. -/
def blankRanges : List (Nat × Nat) :=
  [(0x09, 0x0D), (0x20, 0x20), (0x85, 0x85), (0xA0, 0xA0), (0x1680, 0x1680), (0x2000, 0x200A),
   (0x2028, 0x2029), (0x202F, 0x202F), (0x205F, 0x205F), (0x3000, 0x3000)]

example : (blankRanges.map fun (lo, hi) => hi + 1 - lo).sum = 25 := by decide

/-- Has the property *White_Space*. -/
def isBlank (c : Char) : Bool :=
  blankRanges.any fun (lo, hi) => lo ≤ c.toNat && c.toNat ≤ hi

/-- Every character is blank; so is the empty text. -/
def allBlank (s : String) : Bool :=
  s.toList.all isBlank

/-- Blank characters dropped at both ends. -/
def trim (s : String) : String :=
  String.ofList (((s.toList.dropWhile isBlank).reverse.dropWhile isBlank).reverse)

/-- The letters `A` to `Z` in lower case, all else unchanged. -/
def lower (s : String) : String :=
  String.ofList (s.toList.map Char.toLower)

end DocTree.Text
