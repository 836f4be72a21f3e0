/-!
# Blank characters and trimming

White space is the Unicode property `White_Space`. Trimming removes a class of characters from
one or both ends of a text and leaves the inside alone.
-/
namespace ApiDocs.Text

/-- The code points with the property `White_Space`, as closed ranges. -/
def blankRanges : List (Nat × Nat) :=
  [(0x09, 0x0D), (0x20, 0x20), (0x85, 0x85), (0xA0, 0xA0), (0x1680, 0x1680), (0x2000, 0x200A),
   (0x2028, 0x2029), (0x202F, 0x202F), (0x205F, 0x205F), (0x3000, 0x3000)]

/-- Whether a character is white space. -/
def isBlank (c : Char) : Bool :=
  blankRanges.any fun r => r.1 ≤ c.toNat && c.toNat ≤ r.2

/-- Drop the longest end of a list whose elements all pass a test. -/
def dropRight (p : Char → Bool) (cs : List Char) : List Char :=
  (cs.reverse.dropWhile p).reverse

/-- Drop the longest start and end of a list whose elements all pass a test. -/
def dropBoth (p : Char → Bool) (cs : List Char) : List Char :=
  dropRight p (cs.dropWhile p)

/-- The text without the characters of a class at its start. -/
def trimLeftWhere (p : Char → Bool) (s : String) : String :=
  String.ofList (s.toList.dropWhile p)

/-- The text without the characters of a class at its start and its end. -/
def trimWhere (p : Char → Bool) (s : String) : String :=
  String.ofList (dropBoth p s.toList)

/-- The text without white space around it. -/
def trim (s : String) : String :=
  trimWhere isBlank s

/-- The text without slashes at its start. -/
def trimLeftSlashes (s : String) : String :=
  trimLeftWhere (· == '/') s

/-- The text without slashes at its start and its end. -/
def trimSlashes (s : String) : String :=
  trimWhere (· == '/') s

/-- A text that holds nothing but white space. -/
def allBlank (s : String) : Bool :=
  s.toList.all isBlank

end ApiDocs.Text
