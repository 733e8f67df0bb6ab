import SyntaxHue.Command.Request

/-!
# Help

What the program says about itself.
-/

namespace SyntaxHue

namespace Command

/-- The program and its version. -/
def versionText : String := "glint 0.1.0\n"

namespace Help

/-- A name and what it means, with the meanings in one column. -/
def row (width : Nat) (entry : String × String) : String :=
  "  " ++ entry.1 ++ String.ofList (List.replicate (width - entry.1.length + 2) ' ') ++
    entry.2 ++ "\n"

/-- Rows under a title. -/
def rows (title : String) (entries : List (String × String)) : String :=
  let width := (entries.map fun e => e.1.length).foldl max 0
  "\n" ++ title ++ ":\n" ++ String.join (entries.map (row width))

/-- What a command does. -/
def about : Verb → String
  | .highlight => "Highlight a file and print the markup"
  | .tokens => "Print the token tree of a file as JSON"
  | .languages => "List registered languages and aliases"

/-- What an option does. -/
def option : OptionName → String × String
  | .language =>
    ("-l, --language <language>", "Language name or alias (defaults to the file extension)")
  | .config => ("-c, --config <config>", "Configuration file layered over the defaults")

/-- Help with a command. -/
def onVerb (verb : Verb) : String :=
  let usage := if verb.takesPath then " [OPTIONS] <path>" else ""
  about verb ++ "\n\nUsage: glint " ++ verb.name ++ usage ++ "\n" ++
    (if verb.takesPath then rows "Arguments" [("<path>", "Path to the source file")] else "") ++
    rows "Options" (verb.options.map option ++ [("-h, --help", "Print help")])

/-- Help with the program. -/
def onProgram : String :=
  "Grammar-driven syntax highlighting\n\nUsage: glint <COMMAND>\n" ++
    rows "Commands" ([Verb.highlight, .tokens, .languages].map (fun v => (v.name, about v)) ++
      [("help", "Print this message or the help of the given subcommand(s)")]) ++
    rows "Options" [("-h, --help", "Print help"), ("-V, --version", "Print version")]

/-- Help with the program or with a command. -/
def text : Option Verb → String
  | none => onProgram
  | some verb => onVerb verb

end Help

end Command

end SyntaxHue
