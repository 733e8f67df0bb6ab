import SyntaxHue.Grammar.Definition
import SyntaxHue.Grammar.Error
import SyntaxHue.Grammar.Pattern
import SyntaxHue.Table
import SyntaxHue.Text.Decoding

/-!
# The grammar store

A store owns compiled grammars in numbered slots and maps the names of languages to slots.
Grammars refer to each other by number, so a grammar that is rebuilt in its slot is seen by all
that refer to it. A definition is compiled in full before the store is touched: an operation
that fails returns no store, and the old one is still there.
-/

namespace SyntaxHue

/-- The patterns of a kind, in order of priority. -/
abbrev Rule := List Pattern

/-- A compiled grammar. -/
structure Grammar where
  /-- The kinds, in order of priority. -/
  rules : Table Rule
  /-- The grammar whose rules come after this one's. -/
  rest : Option GrammarId

instance : Inhabited Grammar := ⟨⟨.empty, none⟩⟩

/-- What a definition is compiled against. -/
structure Compiler where
  /-- The number of slots before the first new one. -/
  base : Nat
  /-- The grammars that a definition can name. -/
  resolve : String → Option GrammarId

namespace Compiler

/-- The grammar of a language. -/
def language (c : Compiler) (name : String) : Except GrammarError GrammarId :=
  match c.resolve name with
  | some id => .ok id
  | none => .error (.unknownLanguage name)

/-- The grammar that rules are continued with. -/
def rest (c : Compiler) : Option String → Except GrammarError (Option GrammarId)
  | none => .ok none
  | some name => some <$> c.language name

/-- Compiles the regular expression of a pattern of `kind`. It is read from its bytes. -/
def regex (kind source : String) : Except GrammarError Regex :=
  match Regex.compile (Decoding.decode source.toByteArray) with
  | .ok r => .ok r
  | .error cause => .error (.invalidPattern kind source cause)

/-- A pattern from its parts. -/
def assemble (head : PatternHead) (regex : Regex) (inside : Option GrammarId) : Pattern where
  source := head.source
  regex := regex
  mode := if head.greedy then .input else .fragment
  lookbehind := head.lookbehind
  aliases := head.aliases
  inside := inside

mutual

/-- Compiles a definition into a new slot. The slot is taken first, so that the grammars that
    are defined inside get the slots after it. -/
def grammar (c : Compiler) (pending : Array Grammar) :
    GrammarDef → Except GrammarError (GrammarId × Array Grammar)
  | .mk rules rest => do
    let slot := pending.size
    let (compiled, pending) ← c.rules (pending.push default) rules
    let rest ← c.rest rest
    return (⟨c.base + slot⟩, pending.setIfInBounds slot ⟨.ofList compiled, rest⟩)

/-- Compiles rules, in order. -/
def rules (c : Compiler) (pending : Array Grammar) :
    List RuleDef → Except GrammarError (List (String × Rule) × Array Grammar)
  | [] => .ok ([], pending)
  | rule :: more => do
    let (first, pending) ← c.rule pending rule
    let (others, pending) ← c.rules pending more
    return (first :: others, pending)

/-- Compiles the patterns of a kind. -/
def rule (c : Compiler) (pending : Array Grammar) :
    RuleDef → Except GrammarError ((String × Rule) × Array Grammar)
  | .mk kind [] => .error (.emptyRule kind)
  | .mk kind patterns => do
    let (patterns, pending) ← c.patterns pending kind patterns
    return ((kind, patterns), pending)

/-- Compiles patterns, in order. -/
def patterns (c : Compiler) (pending : Array Grammar) (kind : String) :
    List PatternDef → Except GrammarError (Rule × Array Grammar)
  | [] => .ok ([], pending)
  | pattern :: more => do
    let (first, pending) ← c.pattern pending kind pattern
    let (others, pending) ← c.patterns pending kind more
    return (first :: others, pending)

/-- Compiles a pattern: first its regular expression, then its inner grammar. -/
def pattern (c : Compiler) (pending : Array Grammar) (kind : String) :
    PatternDef → Except GrammarError (Pattern × Array Grammar)
  | .mk head inside => do
    let regex ← regex kind head.source
    let (inside, pending) ← c.inside pending inside
    return (assemble head regex inside, pending)

/-- Compiles or looks up an inner grammar. -/
def inside (c : Compiler) (pending : Array Grammar) :
    InsideDef → Except GrammarError (Option GrammarId × Array Grammar)
  | .none => .ok (none, pending)
  | .language name => do
    let id ← c.language name
    return (some id, pending)
  | .grammar definition => do
    let (id, pending) ← c.grammar pending definition
    return (some id, pending)

end

end Compiler

/-- Where `Store.extendAt` puts the kinds that the base lacks. -/
inductive Placement where
  | atEnd
  | before (kind : String)
deriving DecidableEq, Repr

/-- The registry of grammars. -/
structure Store where
  slots : Array Grammar
  languages : Table GrammarId

instance : Inhabited Store := ⟨⟨#[], .empty⟩⟩

namespace Store

/-- The store without grammars. -/
def empty : Store := ⟨#[], .empty⟩

/-- The grammar of a language. -/
def get? (s : Store) (language : String) : Option GrammarId :=
  s.languages.get? language

def contains (s : Store) (language : String) : Bool :=
  s.languages.contains language

/-- The grammar in a slot. -/
def grammar? (s : Store) (id : GrammarId) : Option Grammar :=
  s.slots[id.index]?

/-- The rules of the grammar in a slot. There are none in a slot that the store does not have. -/
def rules (s : Store) (id : GrammarId) : Table Rule :=
  match s.grammar? id with
  | some g => g.rules
  | none => .empty

/-- The inner grammar of the first pattern of `kind` that has one. -/
def insideOf (s : Store) (id : GrammarId) (kind : String) : Option GrammarId := do
  let rule ← (s.rules id).get? kind
  rule.findSome? Pattern.inside

/-- The rules that tokenizing applies: the grammar's own, then those of its `rest`. A kind that
    both have keeps its place and takes the patterns of `rest`. -/
def effectiveRules (s : Store) (id : GrammarId) : Table Rule :=
  match s.grammar? id with
  | none => .empty
  | some g =>
    match g.rest with
    | none => g.rules
    | some rest => g.rules.putAll (s.rules rest).entries

/-- What a definition of `language` is compiled against. The language itself is the slot that
    comes next. -/
def compilerFor (s : Store) (language : String) : Compiler where
  base := s.slots.size
  resolve name := if name = language then some ⟨s.slots.size⟩ else s.get? name

/-- What rules that belong to no new language are compiled against. -/
def compiler (s : Store) : Compiler where
  base := s.slots.size
  resolve := s.get?

/-- Compiles a definition and registers it as `language`. It may name any registered language
    and itself. -/
def define (s : Store) (language : String) (d : GrammarDef) :
    Except GrammarError (GrammarId × Store) := do
  let (root, pending) ← (s.compilerFor language).grammar #[] d
  return (root, ⟨s.slots ++ pending, s.languages.put language root⟩)

/-- Registers another name for the grammar of `language`. -/
def addAlias (s : Store) (name language : String) : Except GrammarError (GrammarId × Store) :=
  match s.get? language with
  | none => .error (.unknownLanguage language)
  | some id => .ok (id, { s with languages := s.languages.put name id })

/-- The rules with `inserted` right before `before`; inserted kinds are taken from where they
    were. -/
def spliceBefore (before : String) (inserted rules : Table Rule) : Table Rule :=
  ⟨rules.entries.flatMap fun entry =>
    (if entry.1 = before then inserted.entries else []) ++
      (if inserted.contains entry.1 then [] else [entry])⟩

/-- The rules of a base with overridden kinds in place and new ones where `placement` says. -/
def mergeRules (base overrides : Table Rule) (placement : Placement) : Table Rule :=
  let known := overrides.entries.filter fun entry => base.contains entry.1
  let added := overrides.entries.filter fun entry => !base.contains entry.1
  let merged := base.putAll known
  match placement with
  | .atEnd => merged.putAll added
  | .before kind => spliceBefore kind ⟨added⟩ merged

/-- Registers `language` as a copy of `base` with overrides. -/
def extendAt (s : Store) (language base : String) (overrides : GrammarDef)
    (placement : Placement) : Except GrammarError (GrammarId × Store) := do
  let some baseId := s.get? base | throw (.unknownLanguage base)
  let baseRules := s.rules baseId
  if let .before kind := placement then
    if !baseRules.contains kind then throw (.unknownKind kind)
  let compiler := s.compilerFor language
  let (compiled, pending) ← compiler.rules #[default] overrides.rules
  let rest ← match overrides.rest with
    | some name => some <$> compiler.language name
    | none => pure ((s.grammar? baseId).bind Grammar.rest)
  let merged : Grammar := ⟨mergeRules baseRules (.ofList compiled) placement, rest⟩
  let root : GrammarId := ⟨s.slots.size⟩
  return (root, ⟨s.slots ++ pending.setIfInBounds 0 merged, s.languages.put language root⟩)

/-- Registers `language` as a copy of `base` with overrides. New kinds go to the end. -/
def extend (s : Store) (language base : String) (overrides : GrammarDef) :
    Except GrammarError (GrammarId × Store) :=
  s.extendAt language base overrides .atEnd

/-- Rebuilds the grammar in a slot with rules right before the kind `before`. -/
def insertBefore (s : Store) (target : GrammarId) (before : String) (d : GrammarDef) :
    Except GrammarError Store := do
  if !(s.rules target).contains before then throw (.unknownKind before)
  let (compiled, pending) ← s.compiler.rules #[] d.rules
  let rebuilt := spliceBefore before (.ofList compiled) (s.rules target)
  return { s with slots :=
    (s.slots ++ pending).modify target.index fun g => { g with rules := rebuilt } }

/-- The slot that is meant by the language `inside`, or with `root` by the inner grammar of the
    kind `inside` of the language `root`. -/
def target (s : Store) (inside : String) (root : Option String) :
    Except GrammarError GrammarId :=
  match root with
  | none =>
    match s.get? inside with
    | some id => .ok id
    | none => .error (.unknownLanguage inside)
  | some root =>
    match s.get? root with
    | none => .error (.unknownLanguage root)
    | some id =>
      match s.insideOf id inside with
      | some id => .ok id
      | none => .error (.unknownKind inside)

/-- Inserts rules into the grammar that is meant by `inside` and `root`. -/
def insertBeforeLanguage (s : Store) (inside before : String) (d : GrammarDef)
    (root : Option String) : Except GrammarError (GrammarId × Store) := do
  let target ← s.target inside root
  let s ← s.insertBefore target before d
  return (target, s)

end Store

end SyntaxHue
