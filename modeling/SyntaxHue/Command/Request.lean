/-!
# Requests

What the arguments of the command line ask for. An option has its value behind it, as the next
argument or after an equals sign; what begins with a hyphen is no value. Behind `--` there are
no more options.
-/

namespace SyntaxHue

namespace Command

/-- The commands. -/
inductive Verb where
  | highlight
  | tokens
  | languages
deriving DecidableEq, Repr

/-- The options that have a value. -/
inductive OptionName where
  | language
  | config
deriving DecidableEq, Repr

/-- What is asked for. -/
inductive Request where
  | highlight (path : String) (language config : Option String)
  | tokens (path : String) (language : Option String)
  | languages
  | version
  /-- Help with the program or with a command. -/
  | help (topic : Option Verb)
deriving DecidableEq, Repr

/-- What is wrong with the arguments. -/
inductive UsageError where
  | noCommand
  | unknownCommand (name : String)
  | unexpected (argument : String)
  | noValue (option : OptionName)
  | repeated (option : OptionName)
  | noPath
deriving DecidableEq, Repr

namespace Verb

def name : Verb → String
  | highlight => "highlight"
  | tokens => "tokens"
  | languages => "languages"

/-- The command with a name. -/
def ofName? (name : String) : Option Verb :=
  [highlight, tokens, languages].find? fun v => v.name = name

/-- The options that a command has. -/
def options : Verb → List OptionName
  | highlight => [.language, .config]
  | tokens => [.language]
  | languages => []

/-- Whether a command needs a file. -/
def takesPath : Verb → Bool
  | languages => false
  | _ => true

end Verb

namespace OptionName

def name : OptionName → String
  | language => "language"
  | config => "config"

/-- The letter of the option. -/
def letter : OptionName → Char
  | language => 'l'
  | config => 'c'

end OptionName

namespace UsageError

/-- What the user is told. -/
def message : UsageError → String
  | noCommand => "a command is required"
  | unknownCommand name => "unrecognized command '" ++ name ++ "'"
  | unexpected argument => "unexpected argument '" ++ argument ++ "' found"
  | noValue option => "a value is required for '--" ++ option.name ++ "'"
  | repeated option => "'--" ++ option.name ++ "' cannot be used multiple times"
  | noPath => "the path of a file is required"

end UsageError

/-- The arguments of a command that were read so far. -/
structure Arguments where
  path : Option String := none
  language : Option String := none
  config : Option String := none
  /-- Help was asked for. -/
  help : Bool := false

/-- What an argument is to a command. -/
inductive Argument where
  | separator
  | help
  | option (name : OptionName) (value : Option String)
  | plain (s : String)
  | unknown

namespace Argument

/-- The characters before the first equals sign, and those behind it if there is one. -/
def splitEquals : List Char → List Char × Option (List Char)
  | [] => ([], none)
  | c :: cs =>
    if c = '=' then ([], some cs)
    else
      let (name, value) := splitEquals cs
      (c :: name, value)

/-- An argument behind two hyphens. -/
def long (verb : Verb) (cs : List Char) : Argument :=
  let (name, value) := splitEquals cs
  let name := String.ofList name
  if name = "help" && value.isNone then help
  else
    match verb.options.find? fun s => s.name = name with
    | some s => option s (value.map String.ofList)
    | none => unknown

/-- An argument behind one hyphen. What follows the letter is the value. -/
def short (verb : Verb) (letter : Char) (cs : List Char) : Argument :=
  if letter = 'h' then help
  else
    match verb.options.find? fun s => s.letter = letter with
    | none => unknown
    | some s =>
      match cs with
      | [] => option s none
      | '=' :: value => option s (some (String.ofList value))
      | value => option s (some (String.ofList value))

/-- What an argument is to a command. -/
def read (verb : Verb) (s : String) : Argument :=
  match s.toList with
  | ['-', '-'] => separator
  | '-' :: '-' :: cs => long verb cs
  | '-' :: letter :: cs => short verb letter cs
  | _ => plain s

end Argument

namespace Arguments

/-- Notes the value of an option. -/
def set (a : Arguments) (s : OptionName) (value : String) : Except UsageError Arguments :=
  match s with
  | .language =>
    if a.language.isSome then .error (.repeated s) else .ok { a with language := some value }
  | .config =>
    if a.config.isSome then .error (.repeated s) else .ok { a with config := some value }

/-- Notes the path of a file. -/
def addPath (a : Arguments) (verb : Verb) (path : String) : Except UsageError Arguments :=
  if verb.takesPath && a.path.isNone then .ok { a with path := some path }
  else .error (.unexpected path)

/-- Reads the arguments of a command. `pending` is an option whose value comes next, and `plain`
    says whether there are no more options. What follows a wish for help is not looked at. -/
def read (verb : Verb) :
    Bool → Option OptionName → Arguments → List String → Except UsageError Arguments
  | _, some s, _, [] => .error (.noValue s)
  | _, none, a, [] => .ok a
  | true, some s, _, _ :: _ => .error (.noValue s)
  | true, none, a, s :: rest => do read verb true none (← a.addPath verb s) rest
  | false, pending, a, s :: rest =>
    match Argument.read verb s, pending with
    | .plain value, some option => do read verb false none (← a.set option value) rest
    | _, some option => .error (.noValue option)
    | .plain path, none => do read verb false none (← a.addPath verb path) rest
    | .separator, none => read verb true none a rest
    | .help, none => .ok { a with help := true }
    | .option option none, none => read verb false (some option) a rest
    | .option option (some value), none => do
      read verb false none (← a.set option value) rest
    | .unknown, none => .error (.unexpected s)

end Arguments

namespace Request

/-- The request for a command. -/
def ofArguments (verb : Verb) (a : Arguments) : Except UsageError Request :=
  if a.help then .ok (.help (some verb))
  else
    match verb, a.path with
    | .languages, _ => .ok .languages
    | .highlight, some path => .ok (.highlight path a.language a.config)
    | .tokens, some path => .ok (.tokens path a.language)
    | _, none => .error .noPath

/-- The help that is asked for by name. -/
def helpOn : List String → Except UsageError Request
  | [] => .ok (.help none)
  | name :: rest =>
    match Verb.ofName? name, rest with
    | some verb, [] => .ok (.help (some verb))
    | some _, other :: _ => .error (.unknownCommand other)
    | none, _ => .error (.unknownCommand name)

/-- Reads the arguments of the program. -/
def read : List String → Except UsageError Request
  | [] => .error .noCommand
  | first :: rest =>
    match first.toList with
    | ['-', '-', 'h', 'e', 'l', 'p'] | '-' :: 'h' :: _ => .ok (.help none)
    | ['-', '-', 'v', 'e', 'r', 's', 'i', 'o', 'n'] | '-' :: 'V' :: _ => .ok .version
    | '-' :: _ => .error (.unexpected first)
    | _ =>
      if first = "help" then helpOn rest
      else
        match Verb.ofName? first with
        | none => .error (.unknownCommand first)
        | some verb => do
          let a ← Arguments.read verb false none {} rest
          ofArguments verb a

end Request

end Command

end SyntaxHue
