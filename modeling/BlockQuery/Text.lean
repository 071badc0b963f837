/-!
# Texts

Texts are compared by code points.  They are trimmed of blanks, the characters with the property
White_Space of Unicode, and split into lines.
-/

namespace BlockQuery

/-- The order of texts by code points, which is also that of their UTF-8 bytes. -/
def compareText (a b : String) : Ordering :=
  List.compareLex (fun c d : Char => compare c.toNat d.toNat) a.toList b.toList

namespace Text

/-! ## Blanks -/

/-- The first and the last code point of each run of blanks. -/
def blankRanges : List (Nat × Nat) :=
  [(0x9, 0xd), (0x20, 0x20), (0x85, 0x85), (0xa0, 0xa0), (0x1680, 0x1680), (0x2000, 0x200a),
    (0x2028, 0x2029), (0x202f, 0x202f), (0x205f, 0x205f), (0x3000, 0x3000)]

def isBlank (c : Char) : Bool :=
  blankRanges.any fun (first, last) => first ≤ c.toNat && c.toNat ≤ last

/-- A text without the blanks at its ends. -/
def trimmed (s : String) : String :=
  String.ofList ((s.toList.dropWhile isBlank).reverse.dropWhile isBlank).reverse

def isAllBlank (s : String) : Bool := s.toList.all isBlank

/-! ## Lines

A line ends with a line feed, which a carriage return may precede; the last one may go without.
-/

/-- The pieces of a text between line feeds, each reversed, and what is left. -/
def splitFeeds (piece : List Char) : List Char → List (List Char) × List Char
  | [] => ([], piece)
  | '\n' :: cs =>
    let (pieces, rest) := splitFeeds [] cs
    (piece :: pieces, rest)
  | c :: cs => splitFeeds (c :: piece) cs

/-- A reversed piece as a line. -/
def lineOf : List Char → String
  | '\r' :: cs => String.ofList cs.reverse
  | cs => String.ofList cs.reverse

def lines (s : String) : List String :=
  let (pieces, rest) := splitFeeds [] s.toList
  pieces.map lineOf ++ if rest.isEmpty then [] else [String.ofList rest.reverse]

end Text
end BlockQuery
