import SyntaxHue.Command.Run

/-!
# The program

Reads the files that a request needs, and prints the answer to it.
-/

namespace SyntaxHue

namespace Command

/-- Why the system cannot read a file. -/
def readErrorOf : IO.Error → ReadError
  | .noFileOrDirectory .. => .notFound
  | .inappropriateType .. => .isDirectory
  | e => .other e.toString

/-- Reads a file. -/
def readFile (path : String) : IO (String × Except ReadError ByteArray) := do
  try
    return (path, .ok (← IO.FS.readBinFile path))
  catch e =>
    return (path, .error (readErrorOf e))

/-- The files that were read. -/
def filesOf (known : List (String × Except ReadError ByteArray)) : Files where
  read path := (known.lookup path).getD (.error .notFound)

/-- Reads the files that a request needs: first those that it names, then those that its
    configuration names. -/
def gather (r : Request) : IO Files := do
  let named ← (r.paths (filesOf [])).mapM readFile
  let stated ← (r.paths (filesOf named)).mapM readFile
  return filesOf stated

end Command

end SyntaxHue

/-- The program. -/
def main (arguments : List String) : IO UInt32 := do
  let answer ← match SyntaxHue.Command.Request.read arguments with
    | .ok request => request.answer <$> SyntaxHue.Command.gather request
    | .error e => pure e.answer
  IO.print answer.output
  IO.eprint answer.errors
  return answer.code
