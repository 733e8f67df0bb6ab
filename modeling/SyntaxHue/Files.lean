import SyntaxHue.Table
import SyntaxHue.Text.Decoding
import SyntaxHue.Text.Path

/-!
# Files

What the library needs to know of a file system: what reading a file gives. A `FileTree` holds
its files in memory.
-/

namespace SyntaxHue

/-- Why a file cannot be read. -/
inductive ReadError where
  | notFound
  | isDirectory
  /-- A part of the path before its end leads to a file. -/
  | notDirectory
  /-- The bytes are not UTF-8. -/
  | notText
  /-- Any other reason that the system gives. -/
  | other (reason : String)
deriving DecidableEq, Repr

namespace ReadError

/-- What the user is told. -/
def message : ReadError → String
  | notFound => "No such file or directory (os error 2)"
  | isDirectory => "Is a directory (os error 21)"
  | notDirectory => "Not a directory (os error 20)"
  | notText => "stream did not contain valid UTF-8"
  | other reason => reason

end ReadError

/-- The files that can be read. -/
structure Files where
  read : String → Except ReadError ByteArray

namespace Files

/-- Reads a file as text. -/
def readText (fs : Files) (path : String) : Except ReadError String := do
  match Decoding.decode? (← fs.read path) with
  | some text => .ok text
  | none => .error .notText

/-- Whether a path leads to a file. -/
def isFile (fs : Files) (path : String) : Bool :=
  match fs.read path with
  | .ok _ => true
  | .error _ => false

end Files

/-- Files by their paths. Their directories are there, too, and there is nothing else. -/
structure FileTree where
  files : List (List String × ByteArray)

namespace FileTree

/-- The tree of files with the given paths. -/
def ofList (files : List (String × ByteArray)) : FileTree :=
  ⟨files.map fun (path, bytes) => ((Path.components path).map String.ofList, bytes)⟩

/-- The file at a place. -/
def file? (t : FileTree) (place : List String) : Option ByteArray :=
  t.files.lookup place

/-- Whether there is a directory at a place. -/
def isDirectory (t : FileTree) (place : List String) : Bool :=
  place.isEmpty || t.files.any fun (path, _) =>
    place.length < path.length && place.isPrefixOf path

/-- Follows the parts of a path from a directory on. -/
def follow (t : FileTree) (place : List String) : List String → Except ReadError ByteArray
  | [] => .error .isDirectory
  | part :: parts =>
    if part = "" || part = "." then t.follow place parts
    else if part = ".." then
      if place.isEmpty then .error .notFound else t.follow place.dropLast parts
    else
      let place := place ++ [part]
      match t.file? place with
      | some bytes => if parts.isEmpty then .ok bytes else .error .notDirectory
      | none => if t.isDirectory place then t.follow place parts else .error .notFound

/-- The tree as files that can be read. -/
def toFiles (t : FileTree) : Files where
  read path :=
    if path.isEmpty || path.toList.head? = some '/' then .error .notFound
    else t.follow [] ((Path.splitAt '/' path.toList).map String.ofList)

end FileTree

end SyntaxHue
