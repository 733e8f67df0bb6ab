/-!
# Grammar definitions

A definition describes a grammar before its patterns are compiled: kinds of tokens in order of
priority, and for each kind the patterns that find it. A pattern may hand the text it finds to
another grammar, which is named or defined in place.
-/

namespace SyntaxHue

/-- A pattern without its inner grammar. -/
structure PatternHead where
  source : String
  /-- Whether the pattern is looked for in the whole input instead of one fragment. -/
  greedy : Bool := false
  /-- Whether the text of the first group is kept out of the token. -/
  lookbehind : Bool := false
  /-- Further classes of the tokens. -/
  aliases : List String := []
deriving DecidableEq, Repr

mutual

/-- A grammar definition. `rest` names a language whose rules come after the grammar's own. -/
inductive GrammarDef where
  | mk (rules : List RuleDef) (rest : Option String)

/-- The patterns of a kind, in order of priority. -/
inductive RuleDef where
  | mk (kind : String) (patterns : List PatternDef)

/-- A pattern definition. -/
inductive PatternDef where
  | mk (head : PatternHead) (inside : InsideDef)

/-- The grammar for the text that a pattern finds. -/
inductive InsideDef where
  | none
  | language (name : String)
  | grammar (definition : GrammarDef)

end

instance : Inhabited GrammarDef := ⟨.mk [] none⟩

instance : Inhabited PatternDef := ⟨.mk { source := "" } .none⟩

namespace RuleDef

def kind : RuleDef → String
  | mk kind _ => kind

def patterns : RuleDef → List PatternDef
  | mk _ patterns => patterns

end RuleDef

namespace PatternDef

def head : PatternDef → PatternHead
  | mk head _ => head

def inside : PatternDef → InsideDef
  | mk _ inside => inside

/-- A pattern with nothing but its source. -/
def plain (source : String) : PatternDef :=
  mk { source } .none

end PatternDef

namespace GrammarDef

def rules : GrammarDef → List RuleDef
  | mk rules _ => rules

def rest : GrammarDef → Option String
  | mk _ rest => rest

/-- Sets the patterns of a kind, in the place of those it has or behind all others. -/
def putRule (rule : RuleDef) : List RuleDef → List RuleDef
  | [] => [rule]
  | other :: rules =>
    if other.kind = rule.kind then rule :: rules else other :: putRule rule rules

/-- The definition with these rules. Of two rules for a kind the last counts, in the place of
    the first. -/
def ofRules (rules : List RuleDef) (rest : Option String) : GrammarDef :=
  mk (rules.foldl (fun rules rule => putRule rule rules) []) rest

/-- The definition without rules. -/
def empty : GrammarDef :=
  mk [] none

/-- The kinds, in order. -/
def kinds (d : GrammarDef) : List String :=
  d.rules.map RuleDef.kind

end GrammarDef

end SyntaxHue
