/-!
# Blanks and pieces of text

The characters with the Unicode property White_Space, and the ways of cutting a text that key
texts and media types share. Texts are lists of characters here.
-/

namespace ProtectedMedia.Text

/-- The ranges of characters with the property White_Space. -/
def blankRanges : List (Nat × Nat) :=
  [(0x9, 0xd), (0x20, 0x20), (0x85, 0x85), (0xa0, 0xa0), (0x1680, 0x1680), (0x2000, 0x200a),
    (0x2028, 0x2029), (0x202f, 0x202f), (0x205f, 0x205f), (0x3000, 0x3000)]

def isBlank (c : Char) : Bool :=
  blankRanges.any fun (low, high) => low ≤ c.toNat && c.toNat ≤ high

example : ((blankRanges.map fun (low, high) => high - low + 1).sum) = 25 := rfl

/-- A text without the characters at either end that satisfy `p`. -/
def trimWhile (p : Char → Bool) (s : List Char) : List Char :=
  ((s.dropWhile p).reverse.dropWhile p).reverse

def trim (s : List Char) : List Char := trimWhile isBlank s

/-- The parts before and after the first occurrence of a character. -/
def splitOnce? (c : Char) (s : List Char) : Option (List Char × List Char) :=
  match s.dropWhile (· ≠ c) with
  | [] => none
  | _ :: rest => some (s.takeWhile (· ≠ c), rest)

/-- The parts between the occurrences of a character; there is always at least one. -/
def splitAll (c : Char) (s : List Char) : List (List Char) :=
  match s with
  | [] => [[]]
  | x :: s =>
    if x = c then [] :: splitAll c s
    else
      match splitAll c s with
      | [] => [[x]]
      | part :: parts => (x :: part) :: parts

/-- ASCII letters in lower case; all other characters as they are. -/
def lower (s : List Char) : List Char := s.map Char.toLower

end ProtectedMedia.Text
