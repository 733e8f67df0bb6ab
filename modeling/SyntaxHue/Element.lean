import SyntaxHue.Text.LowerCase
import SyntaxHue.Text.Property

/-!
# Code elements

An element of a document says in its class, or in that of an ancestor, which language its text
is in: a class such as `language-css` or `lang-css` declares the language `css`.
-/

namespace SyntaxHue

/-- An element with source code. -/
structure CodeElement where
  code : String
  /-- The classes of the element, separated by white space. -/
  className : String := ""
  /-- The classes of the elements around it, nearest first. -/
  ancestors : List String := []
deriving DecidableEq, Repr

namespace LanguageClass

/-- What follows `word` at the start of `cs`, both in either case of the letters A to Z. -/
def afterWord? : List Char → List Char → Option (List Char)
  | [], cs => some cs
  | _ :: _, [] => none
  | w :: word, c :: cs => if c.toLower = w then afterWord? word cs else none

/-- Whether `c` may stand in the name of a language. -/
def isNameChar (c : Char) : Bool :=
  isWord c || c = '-'

/-- Takes hyphens off the end of a name. -/
def dropHyphens (name : List Char) : List Char :=
  (name.reverse.dropWhile (· = '-')).reverse

/-- The name at the start of `cs`: word characters and hyphens, up to the last word character. -/
def name? (cs : List Char) : Option (List Char) :=
  match dropHyphens (cs.takeWhile isNameChar) with
  | [] => none
  | name => some name

/-- The name of the language that is declared right at the start of `cs`. -/
def declared? (cs : List Char) : Option (List Char) :=
  match afterWord? ['l', 'a', 'n', 'g'] cs with
  | none => none
  | some rest =>
    match (afterWord? ['u', 'a', 'g', 'e'] rest).getD rest with
    | '-' :: rest => name? rest
    | _ => none

/-- The first language that is declared in `cs`. A declaration does not start inside a word;
    `inWord` says whether the character before `cs` belongs to one. -/
def search (inWord : Bool) : List Char → Option (List Char)
  | [] => none
  | c :: cs =>
    match if inWord then none else declared? (c :: cs) with
    | some name => some name
    | none => search (isWord c) cs

/-- The first language that a class attribute declares. -/
def find? (className : List Char) : Option (List Char) :=
  search false className

end LanguageClass

namespace CodeElement

/-- The language that the element or the nearest ancestor declares, in lower case. -/
def declaredLanguage? (e : CodeElement) : Option String :=
  ((e.className :: e.ancestors).findSome? fun className =>
    LanguageClass.find? className.toList).map fun name => String.ofList (lowerText name)

/-- The language that the element declares, or `none`. -/
def language (e : CodeElement) : String :=
  e.declaredLanguage?.getD "none"

/-- The classes of the element that declare no language. -/
def otherClasses (e : CodeElement) : List (List Char) :=
  (splitBlanks e.className.toList).filter fun className =>
    (LanguageClass.find? className).isNone

/-- The classes of the element with one class for its language in place of all others. -/
def normalizedClass (e : CodeElement) (language : String) : String :=
  String.intercalate " " (e.otherClasses.map String.ofList ++ ["language-" ++ language])

end CodeElement

end SyntaxHue
