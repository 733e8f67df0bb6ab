import SyntaxHue.Table
import SyntaxHue.Text.Quoted

/-!
# Hooks

Hooks are extension points with names. Each name has a list of callbacks, which are run in the
order in which they were added. A callback changes an environment of type `ε`, and may read and
write a state of type `σ` that belongs to whoever added it.
-/

namespace SyntaxHue

/-- A callback. -/
abbrev Hook (ε σ : Type) := ε → σ → ε × σ

/-- Callbacks under names. -/
structure HookRegistry (ε σ : Type) where
  hooks : Table (List (Hook ε σ))

namespace HookRegistry

variable {ε σ : Type}

/-- The registry without callbacks. -/
def empty : HookRegistry ε σ := ⟨.empty⟩

/-- The callbacks under a name. -/
def get (r : HookRegistry ε σ) (name : String) : List (Hook ε σ) :=
  (r.hooks.get? name).getD []

/-- Adds a callback behind those that the name has. -/
def add (r : HookRegistry ε σ) (name : String) (hook : Hook ε σ) : HookRegistry ε σ :=
  ⟨r.hooks.put name (r.get name ++ [hook])⟩

/-- Runs callbacks one after the other. -/
def runAll (hooks : List (Hook ε σ)) (env : ε) (st : σ) : ε × σ :=
  hooks.foldl (fun (env, st) hook => hook env st) (env, st)

/-- Runs the callbacks under a name. -/
def run (r : HookRegistry ε σ) (name : String) (env : ε) (st : σ) : ε × σ :=
  runAll (r.get name) env st

/-- The number of callbacks under a name. -/
def count (r : HookRegistry ε σ) (name : String) : Nat :=
  (r.get name).length

/-- Whether there are no callbacks. -/
def isEmpty (r : HookRegistry ε σ) : Bool :=
  r.hooks.entries.all fun entry => entry.2.isEmpty

/-- Drops the callbacks under a name. -/
def clear (r : HookRegistry ε σ) (name : String) : HookRegistry ε σ :=
  ⟨r.hooks.erase name⟩

/-- The names, in the order of their code points. -/
def sortedNames (r : HookRegistry ε σ) : List String :=
  r.hooks.names.mergeSort fun a b => a ≤ b

/-- What the registry looks like to a reader. -/
def describe (r : HookRegistry ε σ) : String :=
  "HookRegistry \x7b hooks: [" ++ String.intercalate ", " (r.sortedNames.map Quoted.text) ++
    "] \x7d"

end HookRegistry

/-- The names of the hooks of the highlighter. -/
inductive Stage where
  | beforeSanityCheck
  | beforeHighlight
  | beforeTokenize
  | afterTokenize
  | wrap
  | beforeInsert
  | afterHighlight
  | complete
deriving DecidableEq, Repr

namespace Stage

/-- The name under which callbacks are added. -/
def name : Stage → String
  | beforeSanityCheck => "before-sanity-check"
  | beforeHighlight => "before-highlight"
  | beforeTokenize => "before-tokenize"
  | afterTokenize => "after-tokenize"
  | wrap => "wrap"
  | beforeInsert => "before-insert"
  | afterHighlight => "after-highlight"
  | complete => "complete"

end Stage

end SyntaxHue
