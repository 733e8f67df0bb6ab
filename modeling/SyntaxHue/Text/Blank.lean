/-!
# White space

The 25 characters with the property White_Space of the Unicode standard.
-/

namespace SyntaxHue

/-- The ranges of white space, ascending, both ends included. -/
def blankRanges : List (Nat × Nat) :=
  [(0x09, 0x0D), (0x20, 0x20), (0x85, 0x85), (0xA0, 0xA0), (0x1680, 0x1680), (0x2000, 0x200A),
   (0x2028, 0x2029), (0x202F, 0x202F), (0x205F, 0x205F), (0x3000, 0x3000)]

/-- Whether `c` is white space. -/
def isBlank (c : Char) : Bool :=
  blankRanges.any fun r => r.1 ≤ c.toNat && c.toNat ≤ r.2

/-- Splits `cs` at white space and drops what is empty. -/
def splitBlanks (cs : List Char) : List (List Char) :=
  go cs []
where
  /-- `word` is the word that is being read, its last character first. -/
  go : List Char → List Char → List (List Char)
    | [], word => if word.isEmpty then [] else [word.reverse]
    | c :: cs, word =>
      if isBlank c then
        if word.isEmpty then go cs [] else word.reverse :: go cs []
      else go cs (c :: word)

end SyntaxHue
