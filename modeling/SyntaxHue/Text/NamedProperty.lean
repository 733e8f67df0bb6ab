import SyntaxHue.Text.LowerCase
import SyntaxHue.Text.Property
import SyntaxHue.Text.Script

/-!
# Properties by name

The properties that a pattern can name. A name is looked up in lower case, without spaces,
hyphens and underscores.
-/

namespace SyntaxHue

/-- A set of characters with its names. -/
structure NamedRanges where
  /-- The name and its short forms. -/
  names : List String
  /-- The text of the ranges. -/
  text : List String

/-- Properties that are given by their ranges. -/
def plainProperties : List NamedRanges := [
  ⟨["asciihexdigit", "ahex"], ["48-10 7-6 26-6"]⟩,
  ⟨["bidicontrol", "bidic"], ["1564 6641-2 26-5 55-4"]⟩,
  ⟨["bidimirrored", "bidim"],
    ["40-2 18 1 28 1 29 1 45 15 3710-4 1885-2 2460-2 10-2 54-2 14-2 177 192-4 3-6 3 3-2 3-4 1-4 ",
     "1 1 4-9 5 1-18 5-4 9-2 1 1-8 1-32 2-4 5 9-2 2-19 5-2 9-5 2-2 4-24 2-16 8-4 20-2 7-2 ",
     "1085-14 74 2-4 1-2 1-3 5-4 5-3 3-14 403-22 2-6 1-14 8 7-6 3 4-5 1-2 2-5 4 1-3 2-2 10-6 ",
     "2-2 12-19 1-4 2 1 2 1-4 5-2 6-3 24-2 11-2 4-4 1-2 2-2 4-43 2-8 1-40 5 1 3-5 5-3 4 3-5 1 ",
     "256 515-4 3-2 1-2 14-2 2-10 43-8 427-10 2-8 52797-6 5-2 162-2 18 1 28 1 29 1 1-2 1-2 ",
     "55159 57 57 57 57"]⟩,
  ⟨["changeswhencasefolded", "cwcf"],
    ["65-26 90 10-23 1-8 32 1 1 1 1 1 1 1 1 1 1 1 1 1 1 1 1 1 1 1 1 1 1 1 1 1 1 1 2 1 1 1 1 1 1 ",
     "1 1-2 1 1 1 1 1 1 1 1 1 1 1 1 1 1 1 1 1 1 1 1 1 1 1-2 1 1 1 1-2 1 1-2 1-3 2-4 1-2 1-3 3-2 ",
     "1-2 1 1 1-2 1 2 1-2 1-3 1 1-2 3 7-2 1-2 1-2 1 1 1 1 1 1 1 1 2 1 1 1 1 1 1 1 1 2-2 1 1-3 1 ",
     "1 1 1 1 1 1 1 1 1 1 1 1 1 1 1 1 1 1 1 1 1 1 1 1 1 1 1 1 7-2 1-2 2 1-4 1 1 1 1 246 42 1 3 ",
     "8 6 1-3 1 1-2 1-17 1-9 22 12-3 3-2 1 1 1 1 1 1 1 1 1 1 1 1 1-2 2-2 1 1-2 2-51 48 1 1 1 1 ",
     "1 1 1 1 1 1 1 1 1 1 1 1 9 1 1 1 1 1 1 1 1 1 1 1 1 1 1 1 1 1 1 1 1 1 1 1 1 1 1 1-2 1 1 1 1 ",
     "1 1 2 1 1 1 1 1 1 1 1 1 1 1 1 1 1 1 1 1 1 1 1 1 1 1 1 1 1 1 1 1 1 1 1 1 1 1 1 1 1 1 1 1 1 ",
     "1 1 1 1 1 2-38 48 2840-38 1 5 810-6 2178-10 6-43 2-3 320 1 1 1 1 1 1 1 1 1 1 1 1 1 1 1 1 ",
     "1 1 1 1 1 1 1 1 1 1 1 1 1 1 1 1 1 1 1 1 1 1 1 1 1 1 1 1 1 1 1 1 1 1 1 1 1 1 1 1 1 1 1 1 1 ",
     "1 1 1 1 1 1 1 1 1 1 1 1 1 5-2 2 1 1 1 1 1 1 1 1 1 1 1 1 1 1 1 1 1 1 1 1 1 1 1 1 1 1 1 1 1 ",
     "1 1 1 1 1 1 1 1 1 1 1 1 1 1 1 1 1 1 1 9-8 8-6 10-8 8-8 8-6 11 1 1 1 8-8 16-48 2-3 2-6 5-3 ",
     "2-6 11-4 12-5 5-3 2-6 297 3-2 6 45-16 19 818-26 1840-48 48 1-3 2 1 1 1-4 1 2 8-3 1 1 1 1 ",
     "1 1 1 1 1 1 1 1 1 1 1 1 1 1 1 1 1 1 1 1 1 1 1 1 1 1 1 1 1 1 1 1 1 1 1 1 1 1 1 1 1 1 1 1 1 ",
     "8 1 4 31053 1 1 1 1 1 1 1 1 1 1 1 1 1 1 1 1 1 1 1 1 1 1 19 1 1 1 1 1 1 1 1 1 1 1 1 1 135 ",
     "1 1 1 1 1 1 3 1 1 1 1 1 1 1 1 1 1 1 1 1 1 1 1 1 1 1 1 1 1 1 1 1 1 1 1 1 1 10 1 1-2 1 1 1 ",
     "1 4 1 2 1 3 1 1 1 1 1 1 1 1 1 1-5 1-5 1 1 1 1 1 1 1 1-4 1 1-2 3 5 1 1 1 24 890-80 20288-7 ",
     "12-5 1033-26 1221-40 136-36 156-11 1-15 1-7 1-2 1770-51 157-22 2874-32 21888-32 31392-34"]⟩,
  ⟨["changeswhenlowercased", "cwl"],
    ["65-26 101-23 1-7 33 1 1 1 1 1 1 1 1 1 1 1 1 1 1 1 1 1 1 1 1 1 1 1 1 1 1 1 2 1 1 1 1 1 1 1 ",
     "2 1 1 1 1 1 1 1 1 1 1 1 1 1 1 1 1 1 1 1 1 1 1 1-2 1 1 3-2 1 1-2 1-3 2-4 1-2 1-3 3-2 1-2 1 ",
     "1 1-2 1 2 1-2 1-3 1 1-2 3 7-2 1-2 1-2 1 1 1 1 1 1 1 1 2 1 1 1 1 1 1 1 1 2-2 1 1-3 1 1 1 1 ",
     "1 1 1 1 1 1 1 1 1 1 1 1 1 1 1 1 1 1 1 1 1 1 1 1 1 7-2 1-2 2 1-4 1 1 1 1 289 1 3 8 6 1-3 1 ",
     "1-2 1-17 1-9 35 8 1 1 1 1 1 1 1 1 1 1 1 5 2 1-2 2-51 48 1 1 1 1 1 1 1 1 1 1 1 1 1 1 1 1 9 ",
     "1 1 1 1 1 1 1 1 1 1 1 1 1 1 1 1 1 1 1 1 1 1 1 1 1 1 1-2 1 1 1 1 1 1 2 1 1 1 1 1 1 1 1 1 1 ",
     "1 1 1 1 1 1 1 1 1 1 1 1 1 1 1 1 1 1 1 1 1 1 1 1 1 1 1 1 1 1 1 1 1 1 1 1 1 2-38 2889-38 1 ",
     "5 722-86 2195 6-43 2-3 320 1 1 1 1 1 1 1 1 1 1 1 1 1 1 1 1 1 1 1 1 1 1 1 1 1 1 1 1 1 1 1 ",
     "1 1 1 1 1 1 1 1 1 1 1 1 1 1 1 1 1 1 1 1 1 1 1 1 1 1 1 1 1 1 1 1 1 1 1 1 1 1 1 1 1 1 1 9 1 ",
     "1 1 1 1 1 1 1 1 1 1 1 1 1 1 1 1 1 1 1 1 1 1 1 1 1 1 1 1 1 1 1 1 1 1 1 1 1 1 1 1 1 1 1 1 1 ",
     "1 1 9-8 8-6 10-8 8-8 8-6 11 1 1 1 8-8 24-8 8-8 8-8 8-5 11-5 11-4 12-5 11-5 297 3-2 6 ",
     "45-16 19 818-26 1840-48 48 1-3 2 1 1 1-4 1 2 8-3 1 1 1 1 1 1 1 1 1 1 1 1 1 1 1 1 1 1 1 1 ",
     "1 1 1 1 1 1 1 1 1 1 1 1 1 1 1 1 1 1 1 1 1 1 1 1 1 1 1 1 1 8 1 4 31053 1 1 1 1 1 1 1 1 1 1 ",
     "1 1 1 1 1 1 1 1 1 1 1 1 19 1 1 1 1 1 1 1 1 1 1 1 1 1 135 1 1 1 1 1 1 3 1 1 1 1 1 1 1 1 1 ",
     "1 1 1 1 1 1 1 1 1 1 1 1 1 1 1 1 1 1 1 1 1 10 1 1-2 1 1 1 1 4 1 2 1 3 1 1 1 1 1 1 1 1 1 ",
     "1-5 1-5 1 1 1 1 1 1 1 1-4 1 1-2 3 5 1 1 1 24 22315-26 1221-40 136-36 156-11 1-15 1-7 1-2 ",
     "1770-51 157-22 2874-32 21888-32 31392-34"]⟩,
  ⟨["changeswhentitlecased", "cwt"],
    ["97-26 58 41-24 1-8 1 1 1 1 1 1 1 1 1 1 1 1 1 1 1 1 1 1 1 1 1 1 1 1 1 1 1 1 2 1 1 1 1 1 1 ",
     "1-2 1 1 1 1 1 1 1 1 1 1 1 1 1 1 1 1 1 1 1 1 1 1 1 2 1 1-3 2 1 2 3 5 2 3-3 2 2 1 1 2 4 2 3 ",
     "1 2 3 1 4 1-2 1-2 1 1 1 1 1 1 1 1 1-2 1 1 1 1 1 1 1 1 1-3 1 1 3 1 1 1 1 1 1 1 1 1 1 1 1 1 ",
     "1 1 1 1 1 1 3 1 1 1 1 1 1 1 1 8 2-2 1 4 1 1 1 1-6 1-2 1 1-2 3-2 1-4 1-5 2 1-2 2 7 2 1-2 ",
     "3-6 5 10-2 166 43 1 3 3-3 18 27-35 1-2 3-3 1 1 1 1 1 1 1 1 1 1 1 1-5 1 2 2 52-48 1 1 1 1 ",
     "1 1 1 1 1 1 1 1 1 1 1 1 1 9 1 1 1 1 1 1 1 1 1 1 1 1 1 1 1 1 1 1 1 1 1 1 1 1 1 1 2 1 1 1 1 ",
     "1 1-2 1 1 1 1 1 1 1 1 1 1 1 1 1 1 1 1 1 1 1 1 1 1 1 1 1 1 1 1 1 1 1 1 1 1 1 1 1 1 1 1 1 1 ",
     "1 1 1 1 1 1 49-39 3696-6 2178-9 1 238 3 16 114 1 1 1 1 1 1 1 1 1 1 1 1 1 1 1 1 1 1 1 1 1 ",
     "1 1 1 1 1 1 1 1 1 1 1 1 1 1 1 1 1 1 1 1 1 1 1 1 1 1 1 1 1 1 1 1 1 1 1 1 1 1 1 1 1 1 1 1 1 ",
     "1 1 1 1 1 1 1 1-7 5 1 1 1 1 1 1 1 1 1 1 1 1 1 1 1 1 1 1 1 1 1 1 1 1 1 1 1 1 1 1 1 1 1 1 1 ",
     "1 1 1 1 1 1 1 1 1 1 1 1-9 8-6 10-8 8-8 8-6 10-8 8-8 8-14 2-8 8-8 8-8 8-5 1-2 6 3-3 1-2 ",
     "8-4 2-2 8-8 10-3 1-2 342 33-16 4 843-26 1862-48 1 3-2 1 1 1 6 2 10 1 1 1 1 1 1 1 1 1 1 1 ",
     "1 1 1 1 1 1 1 1 1 1 1 1 1 1 1 1 1 1 1 1 1 1 1 1 1 1 1 1 1 1 1 1 1 1 1 1 1 1 8 1 4 12-38 1 ",
     "5 30995 1 1 1 1 1 1 1 1 1 1 1 1 1 1 1 1 1 1 1 1 1 1 19 1 1 1 1 1 1 1 1 1 1 1 1 1 135 1 1 ",
     "1 1 1 1 3 1 1 1 1 1 1 1 1 1 1 1 1 1 1 1 1 1 1 1 1 1 1 1 1 1 1 1 1 1 1 10 1 2 1 1 1 1 4 4 ",
     "1-2 2 1 1 1 1 1 1 1 1 1 11 1 1 1 1 1 1 1 4 1 2 3 1 1 1 1 1 26 860 28-80 20288-7 12-5 ",
     "1065-26 1229-40 136-36 155-11 1-15 1-7 1-2 1795-51 125-22 2874-32 21888-32 31394-34"]⟩,
  ⟨["changeswhenuppercased", "cwu"],
    ["97-26 58 41-24 1-8 1 1 1 1 1 1 1 1 1 1 1 1 1 1 1 1 1 1 1 1 1 1 1 1 1 1 1 1 2 1 1 1 1 1 1 ",
     "1-2 1 1 1 1 1 1 1 1 1 1 1 1 1 1 1 1 1 1 1 1 1 1 1 2 1 1-3 2 1 2 3 5 2 3-3 2 2 1 1 2 4 2 3 ",
     "1 2 3 1 5-2 1-2 1-2 1 1 1 1 1 1 1 1-2 1 1 1 1 1 1 1 1 1-2 1-2 1 3 1 1 1 1 1 1 1 1 1 1 1 1 ",
     "1 1 1 1 1 1 1 3 1 1 1 1 1 1 1 1 8 2-2 1 4 1 1 1 1-6 1-2 1 1-2 3-2 1-4 1-5 2 1-2 2 7 2 1-2 ",
     "3-6 5 10-2 166 43 1 3 3-3 18 27-35 1-2 3-3 1 1 1 1 1 1 1 1 1 1 1 1-5 1 2 2 52-48 1 1 1 1 ",
     "1 1 1 1 1 1 1 1 1 1 1 1 1 9 1 1 1 1 1 1 1 1 1 1 1 1 1 1 1 1 1 1 1 1 1 1 1 1 1 1 2 1 1 1 1 ",
     "1 1-2 1 1 1 1 1 1 1 1 1 1 1 1 1 1 1 1 1 1 1 1 1 1 1 1 1 1 1 1 1 1 1 1 1 1 1 1 1 1 1 1 1 1 ",
     "1 1 1 1 1 1 49-39 2888-43 2-3 760-6 2178-9 1 238 3 16 114 1 1 1 1 1 1 1 1 1 1 1 1 1 1 1 1 ",
     "1 1 1 1 1 1 1 1 1 1 1 1 1 1 1 1 1 1 1 1 1 1 1 1 1 1 1 1 1 1 1 1 1 1 1 1 1 1 1 1 1 1 1 1 1 ",
     "1 1 1 1 1 1 1 1 1 1 1 1 1-7 5 1 1 1 1 1 1 1 1 1 1 1 1 1 1 1 1 1 1 1 1 1 1 1 1 1 1 1 1 1 1 ",
     "1 1 1 1 1 1 1 1 1 1 1 1 1 1 1 1 1-9 8-6 10-8 8-8 8-6 10-8 8-8 8-14 2-53 1-2 4 1 3-3 1-2 4 ",
     "3-4 2-2 8-8 10-3 1-2 4 337 33-16 4 843-26 1862-48 1 3-2 1 1 1 6 2 10 1 1 1 1 1 1 1 1 1 1 ",
     "1 1 1 1 1 1 1 1 1 1 1 1 1 1 1 1 1 1 1 1 1 1 1 1 1 1 1 1 1 1 1 1 1 1 1 1 1 1 1 8 1 4 12-38 ",
     "1 5 30995 1 1 1 1 1 1 1 1 1 1 1 1 1 1 1 1 1 1 1 1 1 1 19 1 1 1 1 1 1 1 1 1 1 1 1 1 135 1 ",
     "1 1 1 1 1 3 1 1 1 1 1 1 1 1 1 1 1 1 1 1 1 1 1 1 1 1 1 1 1 1 1 1 1 1 1 1 10 1 2 1 1 1 1 4 ",
     "4 1-2 2 1 1 1 1 1 1 1 1 1 11 1 1 1 1 1 1 1 4 1 2 3 1 1 1 1 1 26 860 28-80 20288-7 12-5 ",
     "1065-26 1229-40 136-36 155-11 1-15 1-7 1-2 1795-51 125-22 2874-32 21888-32 31394-34"]⟩,
  ⟨["dash"],
    ["45 1372 51 3649 1029 2057-6 61 39 15 390 3076 2 31-2 4 28 446 19 111 52624-2 37 10 169 ",
     "3680 318"]⟩,
  ⟨["defaultignorablecodepoint", "di"],
    ["173 673 716 2882-2 1619-2 85-5 2043-5 26-5 49-16 4340 52379-16 239 160 79-9 48295-4 ",
     "5327-8 798341-4096"]⟩,
  ⟨["deprecated", "dep"], ["329 1321 2307 1 2089-2 2245-6 697-2 908502"]⟩,
  ⟨["diacritic", "dia"],
    ["94 1 71 6 4 2-2 503-159 1-8 5-6 17-2 4 9-2 253-5 209 55-45 1 1-2 1-2 1 131-8 4-2 134-2 ",
     "4-2 3-3 67-27 91-11 58-11 34-2 126-8 41-10 16-28 61 16 3-4 28 74 16 110 16 110 16 47-3 60 ",
     "16 7 119 110 16 110 16 109-2 16 124 111 12-6 1 107 13-5 75-2 27 1 1 4-2 66-3 1-2 62 112 ",
     "1-2 40-2 4-5 25-7 1 10-2 705-3 948-2 30 148-11 9 347-3 292 20-8 2 48-15 2-11 104 15 38-9 ",
     "54-2 58 11-2 66-2 64-6 82-25 4 6 2-3 50-63 48-36 5-12 37-11 445 1-3 11-3 13-3 13-3 13-2 ",
     "3312-3 317 506-6 105-4 95 30066 12-2 1 28-2 82-2 14-34 102-3 109-2 12 37 151 27-18 57-4 ",
     "36 95 12 36 149-3 65-4 51 100-5 9-3 128-2 20272 769-16 270 1 47 45-2 67 764 1183-6 1-42 ",
     "1-9 637-3 4 165-2 571-6 38 26-5 399-3 70-11 49-4 192 41 72-2 120-2 62 76 9-3 104-2 178-2 ",
     "80-2 16 24-7 3-5 89-3 1-2 13-2 95 3 123-2 251-2 126 118-2 115 269-2 258-2 4 156 83 18 81 ",
     "421 258 1-2 81 425-2 23 5356-15 11481 2496-5 59-7 564-2 546-17 80-2 16382-4 1-7 1-2 ",
     "7937-46 2-23 544-3 3-6 8-8 2-7 30-4 3714-62 194-7 375 61-4 766-2 736-7 109-3 1-3"]⟩,
  ⟨["emoji"],
    ["35 6 5-10 111 4 8077 12 216 22 90-6 15-2 367-2 12 166 25-11 4-3 199 231-2 10 9 58-4 1-5 9 ",
     "2 2-2 2 4 2 1-2 2 3 3-2 8-3 5 1 5-12 11-2 2 1-2 1 18 2-2 18-6 1 1-2 3-2 5 2-2 4-2 11-2 ",
     "5-2 2 5-2 1 1-2 20-2 5-6 1-4 2 4 2 2-6 1 2 1 1 6 3 6 10-2 15 2 4 1 4-3 1 11-2 48-3 9 14 ",
     "14 372-2 463-3 19-2 51 4 1242 12 601 1 114026 202 160-2 12-2 14 2-10 75-26 1-2 23 20 2-9 ",
     "21-2 174-34 2-112 2-2 1-3 2-83 2-3 1-263 1-63 11-6 1-24 7-2 2-8 12 2-4 2 4-2 13-2 2 8-2 9 ",
     "5-3 12-3 8-3 2 1 4 6 3 6-86 48-70 5-8 2-3 4-10 3 1-2 3 2-10 227-12 4 283-47 1-10 1-185 ",
     "112-13 3-10 5-56 7-15 2-11 6-9"]⟩,
  ⟨["emojicomponent", "ecomp"], ["35 6 5-10 8147 213 56619 62422-26 507-5 1456-4 788076-96"]⟩,
  ⟨["emojimodifier", "emod"], ["127995-5"]⟩,
  ⟨["emojimodifierbase", "ebase"],
    ["9757 219 16-4 117879 60-3 2 2-3 117-2 2-11 21-19 3 4-3 1-3 7 1 24 201-2 4 21 4-2 174-3 ",
     "3-5 83 16-3 9 11 575 2 8-8 6 9-10 2-3 56 61-2 1-2 1 17-3 1-13 229-3 42-9"]⟩,
  ⟨["emojipresentation", "epres"],
    ["8986-2 205-4 3 2 521-2 21-2 50-12 43 19 13 8-2 17-2 5-2 8 5 21 7-2 1 4 2 7 4-2 28 35 1 ",
     "4-3 1 61-3 24 14 859-2 51 4 115886 202 190 2-10 75-26 1 24 20 2-5 1-3 21-2 174-33 12-9 ",
     "1-70 1-22 12-43 4-5 12-17 3 3-71 1 1-187 2-63 13-4 1-24 18 26-2 13 86-85 48-70 6 3-3 2-3 ",
     "4-4 11-2 7-9 227-12 4 283-47 1-10 1-185 112-13 3-10 5-56 7-15 2-11 6-9"]⟩,
  ⟨["extendedpictographic", "extpict"],
    ["169 4 8077 12 216 22 90-6 15-2 367-2 12 166 25-11 4-3 199 231-2 10 9 58-4 1-5 9 2 2-2 2 4 ",
     "2 1-2 2 3 3-2 8-3 5 1 5-12 11-2 2 1-2 1 18 2-2 18-6 1 1-2 3-2 5 2-2 4-2 11-2 5-2 2 5-2 1 ",
     "1-2 20-2 5-6 1-4 2 4 2 2-6 1 2 1 1 6 3 6 10-2 15 2 4 1 4-3 1 11-2 48-3 9 14 14 372-2 ",
     "463-3 19-2 51 4 1242 12 601 1 114026 202 160-2 12-2 14 2-10 102-2 23 20 2-9 21-2 174-34 ",
     "2-112 2-2 1-3 2-83 2-3 1-4 5-254 1-63 11-6 1-24 7-2 2-8 12 2-4 2 4-2 13-2 2 8-2 9 5-3 ",
     "12-3 8-3 2 1 4 6 3 6-86 48-70 5-8 2-3 4-10 3 1-2 3 2-10 227-12 4 283-47 1-10 1-185 112-13 ",
     "3-10 5-56 7-15 2-11 6-9"]⟩,
  ⟨["extender", "ext"],
    ["183 536-2 878 441 630 137 89 752 127 2371 56 611 398 68 5001 43-5 103-2 93-3 28438 1526 ",
     "962 22 137 108 21-2 21627 2064-2 1483 27 4 1223 293 116-2 498-3 1231 20649-2 1180-2 1 ",
     "29016-2 1201 852-3"]⟩,
  ⟨["hexdigit", "hex"], ["48-10 7-6 26-6 65193-10 7-6 26-6"]⟩,
  ⟨["hyphen"], ["45 127 1244 4731 2057-2 3589 739 52583 169 87"]⟩,
  ⟨["idsbinaryoperator", "idsb"], ["12272-2 2-10 497"]⟩,
  ⟨["idstrinaryoperator", "idst"], ["12274-2"]⟩,
  ⟨["ideographic", "ideo"],
    ["12294-2 25-9 14-3 965-6592 64-20992 22784-366 2-106 29962 27-6136 8-1238 41-10 9319-396 ",
     "19716-42720 32-4154 6-222 2-5762 14-7473 15-622 2466-542 1506-4939 5-4192"]⟩,
  ⟨["joincontrol", "joinc"], ["8204-2"]⟩,
  ⟨["logicalorderexception", "loe"], ["3648-5 123-5 2800-3 2 37114-2 2 1-2"]⟩,
  ⟨["math"],
    ["43 16-3 31 29 1 45 4 37 31 728-3 2 26-2 2-3 527-3 6669 27-3 11 3 13 14-4 21-5 11-5 65-13 ",
     "4 3-2 4-5 18 4 2-10 1 2-6 6 3-2 2-2 1-3 1-6 3-14 1 68-24 1-6 1-2 4-2 4-32 1 6-2 14-268 ",
     "8-4 20-2 90 30-27 1 24 11-7 445-2 12-10 4-6 4-2 2-2 3-5 14 1 2-6 11-8 5-2 57 1 29-4 9-3 ",
     "336-64 256-512 48-21 2-6 53212 823-6 1 162 16-3 29 1 29 1 131 6-4 3489-2 50800-85 1-71 ",
     "1-2 2 2-2 2-4 1-12 1 1-7 1-65 1-4 2-8 1-7 1-28 1-4 1-5 1 3-7 1-340 2-292 2-50 5632-4 1-27 ",
     "1-2 1 2 1-10 1-4 1 1 6 4 1 1 1-3 1-2 1 2 1 1 1 1 1-2 1 2-4 1-7 1-4 1-4 1 1-10 1-17 5-3 ",
     "1-5 1-17 52-2"]⟩,
  ⟨["noncharactercodepoint", "nchar"],
    ["64976-32 526-2 65534-2 65534-2 65534-2 65534-2 65534-2 65534-2 65534-2 65534-2 65534-2 ",
     "65534-2 65534-2 65534-2 65534-2 65534-2 65534-2 65534-2"]⟩,
  ⟨["patternsyntax", "patsyn"],
    ["33-15 10-7 26-4 1 26-4 34-7 1 1-2 1 1-2 4 4 3 23 31 7960-24 8-15 2-19 1-10 305-720 ",
     "160-630 30-1132 512-128 385-3 4-25 15 52493-2 261-2"]⟩,
  ⟨["patternwhitespace", "patws"], ["9-5 18 100 8072-2 24-2"]⟩,
  ⟨["prependedconcatenationmark", "pcm"], ["1536-6 215 49 384-2 80 67546 15"]⟩,
  ⟨["quotationmark", "qmark"], ["34 4 131 15 8028-8 25-2 3591 457-4 13-3 52769-4 189 4 90-2"]⟩,
  ⟨["radical"], ["11904-26 1-89 12-214"]⟩,
  ⟨["regionalindicator", "ri"], ["127462-26"]⟩,
  ⟨["sentenceterminal", "sterm"],
    ["33 12 16 1353 147-3 180 43-3 246 61 1 3-2 293-2 1764-2 790 4-2 773 198-2 157-2 45 5 314-2 ",
     "354-4 162-2 10-2 2-2 29-3 187-2 65-2 932 23-2 9-3 3247-3 306 13 22-2 429 29948 270-2 227 ",
     "3 382-2 86-2 95 152-2 147-3 144-2 249 21030 2-2 59 3-2 169 12 16 65 2804-2 1277-5 44-4 ",
     "189-2 117-4 127-3 129-2 6 16-2 88-2 1-2 108 298-2 117-2 373-2 5-15 105-2 249-3 517 1 ",
     "251-2 87-2 420-2 692-2 74-2 19241-2 133 65-2 11 553-2 296 19974 7656"]⟩,
  ⟨["softdotted", "sd"],
    ["105-2 196 281 30 52 20 320 98 1 6409 51 13 3 132 157 421 214-2 2866 108453-2 50-2 50-2 ",
     "50-2 50-2 50-2 50-2 50-2 50-2 50-2 50-2 50-2 50-2 2182 305-2 26"]⟩,
  ⟨["terminalpunctuation", "term"],
    ["33 10 1 11-2 3 830 8 513 57 72 14 1-3 180 43-11 1 235-2 54-6 1-8 31 261-2 1268-2 172 4-6 ",
     "311-2 789-8 773 124-3 71-2 157-3 3 39-4 2-2 314-2 354-4 162-2 10-2 1-3 29-3 187-5 62-2 ",
     "932 23-2 9-3 3247-3 306 13 4 10 1-2 3-2 428-2 29947-2 269-3 227-5 382-2 86-2 95 151-3 ",
     "147-3 127 16-2 249 21030 2-2 57-3 1-4 169 10 1 11-2 3 65 2 1082 48 1158 199 310-2 152-6 ",
     "68-6 89-4 952-5 44-4 189-7 112-4 127-3 129-2 6 16-2 88-5 108 298-2 117-3 12-2 358-4 3-15 ",
     "105-2 249-3 517 1 251-2 87-2 4-2 414-3 45 645-2 74-2 1323-5 17913-2 133 65-3 10 553-2 ",
     "295-2 19974 7655-4"]⟩,
  ⟨["unifiedideograph", "uideo"],
    ["13312-6592 64-20992 23054-2 1 1-2 10 1 1-2 2-3 67030-42720 32-4154 6-222 2-5762 14-7473 ",
     "15-622 4514-4939 5-4192"]⟩,
  ⟨["variationselector", "vs"], ["6155-3 1 58864-16 852720-240"]⟩,
  ⟨["idsunaryoperator", "idsu"], ["12286-2"]⟩
  ]

namespace CharProperty

/-- The characters of some ranges. -/
def ofRanges (ranges : List (Nat × Nat)) : CharProperty where
  also := ranges

/-- The characters of some categories. -/
def ofCategories (categories : List Category) : CharProperty where
  categories := categories

/-- The property without some characters. -/
def except (p : CharProperty) (ranges : List (Nat × Nat)) : CharProperty :=
  { p with without := p.without ++ ranges }

/-- Everything. -/
def everything : CharProperty :=
  ofRanges [(0, 0x10FFFF)]

/-- The code points that stand for a character. -/
def assigned : CharProperty where
  categories := [.control, .format, .privateUse, .surrogate, .letterNumber, .decimalNumber,
    .otherNumber, .connector, .dash, .closing, .finalQuote, .initialQuote, .otherPunctuation,
    .opening, .currency, .modifierSymbol, .mathSymbol, .otherSymbol, .lineSeparator,
    .paragraphSeparator, .spaceSeparator] ++ letterCategories ++ markCategories

/-- The characters that can begin an identifier. -/
def identifierStart : CharProperty where
  categories := .letterNumber :: letterCategories
  also := [(0x1885, 0x1886), (0x2118, 0x2118), (0x212E, 0x212E), (0x309B, 0x309C)]
  without := [(0x2E2F, 0x2E2F)]

/-- The characters that can stand in an identifier. -/
def identifierPart : CharProperty where
  categories := [.letterNumber, .nonspacingMark, .spacingMark, .decimalNumber, .connector] ++
    letterCategories
  also := [(0xB7, 0xB7), (0x387, 0x387), (0x1369, 0x1371), (0x19DA, 0x19DA), (0x200C, 0x200D),
    (0x2118, 0x2118), (0x212E, 0x212E), (0x309B, 0x309C), (0x30FB, 0x30FB), (0xFF65, 0xFF65)]
  without := [(0x2E2F, 0x2E2F)]

/-- Characters that are no part of an identifier once they are put in normal form. -/
def unstableForms : List (Nat × Nat) :=
  [(0x37A, 0x37A), (0x309B, 0x309C), (0xFC5E, 0xFC63), (0xFDFA, 0xFDFB), (0xFE70, 0xFE70),
   (0xFE72, 0xFE72), (0xFE74, 0xFE74), (0xFE76, 0xFE76), (0xFE78, 0xFE78), (0xFE7A, 0xFE7A),
   (0xFE7C, 0xFE7C), (0xFE7E, 0xFE7E)]

/-- Letters that do not begin an identifier once they are put in normal form. -/
def innerForms : List (Nat × Nat) :=
  [(0xE33, 0xE33), (0xEB3, 0xEB3), (0xFF9E, 0xFF9F)]

/-- The marks that extend the character before them, and what acts like them. -/
def graphemeExtend : CharProperty where
  categories := [.nonspacingMark, .enclosingMark]
  also := extenderRanges

/-- What shows by itself. -/
def graphemeBase : CharProperty where
  categories := [.decimalNumber, .letterNumber, .otherNumber, .connector, .dash, .opening,
    .closing, .initialQuote, .finalQuote, .otherPunctuation, .mathSymbol, .currency,
    .modifierSymbol, .otherSymbol, .spaceSeparator, .spacingMark] ++ letterCategories
  without := extenderRanges

/-- Characters with a case. -/
def cased : CharProperty where
  categories := [.lowercase, .uppercase, .titlecase]
  also := otherLowercaseRanges ++ otherUppercaseRanges

/-- Characters that case ignores. -/
def caseIgnorable : CharProperty where
  categories := [.nonspacingMark, .enclosingMark, .format, .modifierLetter, .modifierSymbol]
  also := wordInnerRanges

/-- The ranges of a plain property. -/
def plainRanges (name : String) : List (Nat × Nat) :=
  ((plainProperties.find? (·.names.contains name)).map fun p => readRanges p.text).getD []

/-- The property that holds or does not hold of each character, of one name. -/
def binary? (name : String) : Option CharProperty :=
  match name with
  | "alphabetic" | "alpha" => some alphabetic
  | "lowercase" | "lower" => some { categories := [.lowercase], also := otherLowercaseRanges }
  | "uppercase" | "upper" => some { categories := [.uppercase], also := otherUppercaseRanges }
  | "whitespace" | "wspace" | "space" => some blank
  | "cased" => some cased
  | "caseignorable" | "ci" => some caseIgnorable
  | "idstart" | "ids" => some identifierStart
  | "idcontinue" | "idc" => some identifierPart
  | "xidstart" | "xids" => some (identifierStart.except (unstableForms ++ innerForms))
  | "xidcontinue" | "xidc" => some (identifierPart.except unstableForms)
  | "graphemeextend" | "grext" => some graphemeExtend
  | "graphemebase" | "grbase" => some graphemeBase
  | "changeswhencasemapped" | "cwcm" =>
    some (ofRanges (["cwl", "cwu", "cwt"].flatMap plainRanges))
  | _ =>
    if plainProperties.any (·.names.contains name) then some (ofRanges (plainRanges name))
    else none

/-- The general category or group of categories of one name. -/
def category? (name : String) : Option CharProperty :=
  match name with
  | "any" => some everything
  | "ascii" => some (ofRanges [(0, 0x7F)])
  | "assigned" => some assigned
  | _ => (categoriesOf? name).map ofCategories

/-- The characters of a script, by its name. -/
def script? (name : String) : Option CharProperty :=
  (Script.find? name).map fun s => ofRanges (readRanges s.own)

/-- The characters that a script uses, by its name. -/
def scriptExtension? (name : String) : Option CharProperty :=
  (Script.find? name).map fun s =>
    { also := readRanges s.own ++ readRanges s.shared, without := readRanges s.lent }

/-- The property of one name. -/
def ofName? (name : String) : Option CharProperty :=
  binary? name <|> category? name <|> script? name

end CharProperty

end SyntaxHue
