/-!
Blank characters and the text between them.
-/

namespace QuantumKernels.Text

/-- The code points with the white-space property. -/
def blankRanges : List (Nat × Nat) :=
  [(0x9, 0xd), (0x20, 0x20), (0x85, 0x85), (0xa0, 0xa0), (0x1680, 0x1680), (0x2000, 0x200a),
    (0x2028, 0x2029), (0x202f, 0x202f), (0x205f, 0x205f), (0x3000, 0x3000)]

def isBlank (c : Char) : Bool :=
  blankRanges.any fun (first, last) => first ≤ c.toNat && c.toNat ≤ last

/-- Drops the blanks at both ends. -/
def trimChars (cs : List Char) : List Char :=
  ((cs.dropWhile isBlank).reverse.dropWhile isBlank).reverse

def trim (s : String) : String := String.ofList (trimChars s.toList)

/-- The pieces between the occurrences of a separator; one more than there are separators. -/
def splitChars (separator : Char) : List Char → List (List Char)
  | [] => [[]]
  | c :: rest =>
    if c = separator then [] :: splitChars separator rest
    else match splitChars separator rest with
      | piece :: pieces => (c :: piece) :: pieces
      | [] => [[c]]

def split (separator : Char) (s : String) : List String :=
  (splitChars separator s.toList).map String.ofList

def lowerAscii (s : String) : String := s.map Char.toLower

/-- Equality up to the case of ASCII letters. -/
def sameIgnoringCase (a b : String) : Bool := lowerAscii a == lowerAscii b

/-- What follows an opening, if the text starts with it. -/
def afterOpening (opening s : String) : Option String :=
  if opening.toList.isPrefixOf s.toList then some (String.ofList (s.toList.drop opening.length)) else none

def joinWith (separator : String) (pieces : List String) : String :=
  separator.intercalate pieces

end QuantumKernels.Text
