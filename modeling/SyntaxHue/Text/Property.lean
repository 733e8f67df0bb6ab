import SyntaxHue.Text.Blank
import SyntaxHue.Text.Category
import SyntaxHue.Text.Ranges

/-!
# Character properties

A property is given by general categories and exceptions from them. This module has the
properties that the library itself asks for, and the categories by their names.
-/

namespace SyntaxHue

/-- A property of characters: some general categories and some code points besides, but none of
    those in `without`. -/
structure CharProperty where
  categories : List Category := []
  also : List (Nat × Nat) := []
  without : List (Nat × Nat) := []

/-- Whether the category of `c` is one of `cats`. -/
def hasCategory (cats : List Category) (c : Char) : Bool :=
  cats.contains (Category.of c)

/-- Whether `c` has the property. -/
def CharProperty.holds (p : CharProperty) (c : Char) : Bool :=
  (hasCategory p.categories c || inRanges p.also c) && !inRanges p.without c

/-- The letters with or without case. -/
def letterCategories : List Category :=
  [.lowercase, .uppercase, .titlecase, .modifierLetter, .otherLetter]

/-- The marks. -/
def markCategories : List Category :=
  [.nonspacingMark, .spacingMark, .enclosingMark]

/-- Letters with the category of symbols. -/
def symbolLetterRanges : List (Nat × Nat) :=
  [(0x24B6, 0x24E9), (0x1F130, 0x1F149), (0x1F150, 0x1F169), (0x1F170, 0x1F189)]

/-- Ranges in which marks do not count as letters. -/
def plainMarkRanges : List (Nat × Nat) :=
  [(768, 836), (838, 866), (1155, 1161), (1425, 1455), (1624, 1624), (1759, 1760), (1770, 1772),
   (1856, 1866), (2027, 2035), (2045, 2045), (2072, 2073), (2093, 2093), (2137, 2139),
   (2200, 2207), (2250, 2259), (2272, 2273), (2282, 2287), (2364, 2364), (2381, 2381),
   (2385, 2388), (2492, 2492), (2509, 2509), (2558, 2558), (2620, 2620), (2637, 2637),
   (2748, 2748), (2765, 2765), (2813, 2815), (2876, 2876), (2893, 2901), (3021, 3021),
   (3132, 3132), (3149, 3149), (3260, 3260), (3277, 3277), (3387, 3388), (3405, 3405),
   (3530, 3530), (3655, 3660), (3662, 3662), (3770, 3770), (3784, 3788), (3790, 3790),
   (3864, 3903), (3972, 3975), (4038, 4038), (4151, 4151), (4153, 4154), (4957, 4959),
   (5908, 5909), (5940, 5940), (6068, 6069), (6089, 6099), (6109, 6159), (6457, 6459),
   (6752, 6752), (6773, 6783), (6832, 6846), (6849, 6859), (6964, 6964), (6980, 6980),
   (7019, 7027), (7082, 7083), (7142, 7142), (7154, 7155), (7223, 7223), (7376, 7400),
   (7405, 7405), (7412, 7412), (7415, 7417), (7616, 7634), (7669, 7679), (8400, 8432),
   (11503, 11505), (11647, 11647), (12330, 12335), (12441, 12442), (42607, 42610), (42620, 42621),
   (42736, 42737), (43014, 43014), (43052, 43052), (43204, 43204), (43232, 43249), (43307, 43309),
   (43347, 43347), (43443, 43443), (43456, 43456), (43711, 43711), (43713, 43713), (43766, 43766),
   (44012, 44013), (65024, 65071), (66045, 66045), (66272, 66272), (68152, 68159), (68325, 68326),
   (68970, 68973), (69373, 69375), (69446, 69456), (69506, 69509), (69702, 69744), (69759, 69759),
   (69817, 69818), (69939, 69940), (70003, 70003), (70080, 70080), (70089, 70092), (70197, 70198),
   (70377, 70378), (70459, 70460), (70477, 70477), (70502, 70516), (70606, 70608), (70610, 70610),
   (70625, 70626), (70722, 70722), (70726, 70726), (70750, 70750), (70850, 70851), (71103, 71104),
   (71231, 71231), (71350, 71351), (71467, 71467), (71737, 71738), (71997, 71998), (72003, 72003),
   (72160, 72160), (72243, 72244), (72263, 72263), (72344, 72345), (72767, 72767), (73026, 73026),
   (73028, 73029), (73111, 73111), (73537, 73562), (78912, 78912), (78919, 78933), (90415, 90415),
   (92912, 92916), (92976, 92982), (94180, 94180), (113821, 113821), (118528, 119364),
   (121344, 121519), (123184, 123190), (123566, 123566), (123628, 123631), (124140, 124143),
   (124398, 124399), (125136, 125142), (125252, 125254), (125256, 125258), (917760, 917999)]

/-- Characters other than marks that only extend the character before them. -/
def extenderRanges : List (Nat × Nat) :=
  [(0x9BE, 0x9BE), (0x9D7, 0x9D7), (0xB3E, 0xB3E), (0xB57, 0xB57), (0xBBE, 0xBBE), (0xBD7, 0xBD7),
   (0xCC0, 0xCC0), (0xCC2, 0xCC2), (0xCC7, 0xCC8), (0xCCA, 0xCCB), (0xCD5, 0xCD6), (0xD3E, 0xD3E),
   (0xD57, 0xD57), (0xDCF, 0xDCF), (0xDDF, 0xDDF), (0x1715, 0x1715), (0x1734, 0x1734),
   (0x1B35, 0x1B35), (0x1B3B, 0x1B3B), (0x1B3D, 0x1B3D), (0x1B43, 0x1B44), (0x1BAA, 0x1BAA),
   (0x1BF2, 0x1BF3), (0x200C, 0x200C), (0x302E, 0x302F), (0xA953, 0xA953), (0xA9C0, 0xA9C0),
   (0xFF9E, 0xFF9F), (0x111C0, 0x111C0), (0x11235, 0x11235), (0x1133E, 0x1133E),
   (0x1134D, 0x1134D), (0x11357, 0x11357), (0x113B8, 0x113B8), (0x113C2, 0x113C2),
   (0x113C5, 0x113C5), (0x113C7, 0x113C9), (0x113CF, 0x113CF), (0x114B0, 0x114B0),
   (0x114BD, 0x114BD), (0x115AF, 0x115AF), (0x116B6, 0x116B6), (0x11930, 0x11930),
   (0x1193D, 0x1193D), (0x11F41, 0x11F41), (0x16FF0, 0x16FF1), (0x1D165, 0x1D166),
   (0x1D16D, 0x1D172), (0xE0020, 0xE007F)]

namespace CharProperty

/-- Letters, numbers that are written as letters, and most of the marks that carry a vowel. -/
def alphabetic : CharProperty where
  categories := .letterNumber :: letterCategories ++ markCategories
  also := symbolLetterRanges
  without := plainMarkRanges

/-- Letters, marks, decimal digits, letter-like numbers, connectors and joiners. -/
def word : CharProperty where
  categories := [.decimalNumber, .letterNumber, .connector] ++ letterCategories ++ markCategories
  also := (0x200C, 0x200D) :: symbolLetterRanges

/-- The decimal digits of all scripts. -/
def decimal : CharProperty where
  categories := [.decimalNumber]

/-- White space. -/
def blank : CharProperty where
  also := blankRanges

end CharProperty

/-- Whether `c` is a word character. -/
def isWord (c : Char) : Bool :=
  if c.toNat < 128 then c.isAlphanum || c = '_' else CharProperty.word.holds c

/-- Whether `c` is a decimal digit of any script. -/
def isDecimal (c : Char) : Bool :=
  if c.toNat < 128 then c.isDigit else CharProperty.decimal.holds c

/-- Whether `c` may stand in a name: a letter, a number or the underscore. -/
def isNameChar (c : Char) : Bool :=
  if c.toNat < 128 then c.isAlphanum || c = '_'
  else CharProperty.alphabetic.holds c ||
    hasCategory [.decimalNumber, .letterNumber, .otherNumber] c

/-- The categories of one name, in lower case without spaces, hyphens and underscores. -/
def categoriesOf? : String → Option (List Category)
  | "l" | "letter" => some letterCategories
  | "lc" | "casedletter" => some [.lowercase, .uppercase, .titlecase]
  | "ll" | "lowercaseletter" => some [.lowercase]
  | "lu" | "uppercaseletter" => some [.uppercase]
  | "lt" | "titlecaseletter" => some [.titlecase]
  | "lm" | "modifierletter" => some [.modifierLetter]
  | "lo" | "otherletter" => some [.otherLetter]
  | "m" | "mark" | "combiningmark" => some markCategories
  | "mn" | "nonspacingmark" => some [.nonspacingMark]
  | "mc" | "spacingmark" => some [.spacingMark]
  | "me" | "enclosingmark" => some [.enclosingMark]
  | "n" | "number" => some [.decimalNumber, .letterNumber, .otherNumber]
  | "nd" | "decimalnumber" | "digit" => some [.decimalNumber]
  | "nl" | "letternumber" => some [.letterNumber]
  | "no" | "othernumber" => some [.otherNumber]
  | "p" | "punctuation" | "punct" =>
    some [.connector, .dash, .opening, .closing, .initialQuote, .finalQuote, .otherPunctuation]
  | "pc" | "connectorpunctuation" => some [.connector]
  | "pd" | "dashpunctuation" => some [.dash]
  | "ps" | "openpunctuation" => some [.opening]
  | "pe" | "closepunctuation" => some [.closing]
  | "pi" | "initialpunctuation" => some [.initialQuote]
  | "pf" | "finalpunctuation" => some [.finalQuote]
  | "po" | "otherpunctuation" => some [.otherPunctuation]
  | "s" | "symbol" => some [.currency, .modifierSymbol, .mathSymbol, .otherSymbol]
  | "sc" | "currencysymbol" => some [.currency]
  | "sk" | "modifiersymbol" => some [.modifierSymbol]
  | "sm" | "mathsymbol" => some [.mathSymbol]
  | "so" | "othersymbol" => some [.otherSymbol]
  | "z" | "separator" => some [.lineSeparator, .paragraphSeparator, .spaceSeparator]
  | "zl" | "lineseparator" => some [.lineSeparator]
  | "zp" | "paragraphseparator" => some [.paragraphSeparator]
  | "zs" | "spaceseparator" => some [.spaceSeparator]
  | "c" | "other" => some [.control, .format, .unassigned, .privateUse, .surrogate]
  | "cc" | "control" | "cntrl" => some [.control]
  | "cf" | "format" => some [.format]
  | "cn" | "unassigned" => some [.unassigned]
  | "co" | "privateuse" => some [.privateUse]
  | _ => none

end SyntaxHue
