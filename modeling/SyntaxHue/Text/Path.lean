/-!
# File paths

A path is a sequence of components between slashes. The extension of a path is what follows the
last dot of its last component, if that dot is not the first character.
-/

namespace SyntaxHue

namespace Path

/-- The parts of `cs` between the characters `sep`: one more than there are of these. -/
def splitAt (sep : Char) : List Char → List (List Char)
  | [] => [[]]
  | c :: cs =>
    if c = sep then [] :: splitAt sep cs
    else
      match splitAt sep cs with
      | [] => [[c]]
      | part :: parts => (c :: part) :: parts

/-- The components that count: empty ones and single dots do not. -/
def components (path : String) : List (List Char) :=
  (splitAt '/' path.toList).filter fun part => part != [] && part != ['.']

/-- The name of the file that a path leads to. -/
def fileName? (path : String) : Option (List Char) :=
  match (components path).getLast? with
  | some ['.', '.'] => none
  | name => name

/-- The parts of a name around its last dot. -/
def splitLastDot? : List Char → Option (List Char × List Char)
  | [] => none
  | c :: cs =>
    match splitLastDot? cs with
    | some (before, after) => some (c :: before, after)
    | none => if c = '.' then some ([], cs) else none

/-- The extension of a path. It may be empty, as that of `x.` is. -/
def extension? (path : String) : Option String := do
  let name ← fileName? path
  let (before, after) ← splitLastDot? name
  if before.isEmpty then none else some (String.ofList after)

/-- Takes slashes and components that do not count off the end of a path. -/
def trimEnd (path : String) : String :=
  String.ofList (go path.toList.reverse).reverse
where
  /-- Takes them off the start of a path that is read backwards. -/
  go : List Char → List Char
    | '/' :: cs => go cs
    | '.' :: '/' :: cs => go cs
    | cs => cs

end Path

end SyntaxHue
