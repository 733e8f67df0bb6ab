import SyntaxHue.Grammar.Source
import SyntaxHue.Language.Markup

/-!
# Stores that are changed in place

The operations on stores take a store and return another one. Here they are pieces of work on one
store that is overwritten step by step: slots are taken, filled and handed over, names are entered,
and whatever a piece of work has done before it fails stays done. Grammars are compiled on a
workbench beside the store, where a slot is taken before what is inside it is compiled, and filled
by its number afterwards.
-/

namespace SyntaxHue

/-- A store and, beside it, the grammars that are being compiled for it. -/
structure Workbench where
  store : Store
  pending : Array Grammar

/-- A piece of work. It leaves a workbench also when it fails. -/
def Work (α : Type) : Type :=
  Workbench → Except GrammarError α × Workbench

namespace Work

variable {α β : Type}

def done (a : α) : Work α :=
  fun w => (.ok a, w)

/-- First `x`, and then `f` unless `x` fails. -/
def andThen (x : Work α) (f : α → Work β) : Work β :=
  fun w =>
    match x w with
    | (.ok a, w) => f a w
    | (.error e, w) => (.error e, w)

instance : Monad Work where
  pure := done
  bind := andThen

/-- Looks something up in the store, which can fail. -/
def look (f : Store → Except GrammarError α) : Work α :=
  fun w => (f w.store, w)

/-- Overwrites something. -/
def change (f : Workbench → Workbench) : Work Unit :=
  fun w => (.ok (), f w)

def clear : Work Unit :=
  change fun w => { w with pending := #[] }

/-- Takes the next slot, which is numbered behind those of the store. -/
def reserve : Work GrammarId :=
  fun w => (.ok ⟨w.store.slots.size + w.pending.size⟩,
    { w with pending := w.pending.push default })

/-- Fills a slot that was taken. -/
def fill (id : GrammarId) (g : Grammar) : Work Unit :=
  change fun w =>
    { w with pending := w.pending.setIfInBounds (id.index - w.store.slots.size) g }

/-- Hands the compiled grammars over to the store. -/
def commit : Work Unit :=
  change fun w => ⟨{ w.store with slots := w.store.slots ++ w.pending }, #[]⟩

def enter (name : String) (id : GrammarId) : Work Unit :=
  change fun w => { w with store := { w.store with languages := w.store.languages.put name id } }

/-- Overwrites the rules in a slot of the store. -/
def rewrite (id : GrammarId) (rules : Table Rule) : Work Unit :=
  change fun w => { w with store := { w.store with
    slots := w.store.slots.modify id.index fun g => { g with rules } } }

/-- The grammar of a name. `self` is the name that is being defined, with its slot. -/
def language (self : Option (String × GrammarId)) (name : String) : Work GrammarId :=
  match self with
  | some (own, id) => if name = own then done id else registered name
  | none => registered name
where
  registered (name : String) : Work GrammarId :=
    look fun s =>
      match s.get? name with
      | some id => .ok id
      | none => .error (.unknownLanguage name)

/-- The grammar that rules are continued with. -/
def rest (self : Option (String × GrammarId)) : Option String → Work (Option GrammarId)
  | none => done none
  | some name => do return some (← language self name)

mutual

def grammar (self : Option (String × GrammarId)) : GrammarDef → Work GrammarId
  | .mk defined next => do
    -- before the rules, so that the grammars that are defined inside get the slots behind it
    let id ← reserve
    let compiled ← rules self defined
    let next ← rest self next
    fill id ⟨.ofList compiled, next⟩
    return id

def rules (self : Option (String × GrammarId)) : List RuleDef → Work (List (String × Rule))
  | [] => done []
  | first :: more => do
    let first ← rule self first
    let others ← rules self more
    return first :: others

def rule (self : Option (String × GrammarId)) : RuleDef → Work (String × Rule)
  | .mk kind [] => look fun _ => .error (.emptyRule kind)
  | .mk kind defined => do
    let compiled ← patterns self kind defined
    return (kind, compiled)

def patterns (self : Option (String × GrammarId)) (kind : String) : List PatternDef → Work Rule
  | [] => done []
  | first :: more => do
    let first ← pattern self kind first
    let others ← patterns self kind more
    return first :: others

/-- Compiles a pattern: first its regular expression, then its inner grammar. -/
def pattern (self : Option (String × GrammarId)) (kind : String) : PatternDef → Work Pattern
  | .mk head inner => do
    let regex ← look fun _ => Compiler.regex kind head.source
    let inner ← inside self inner
    return Compiler.assemble head regex inner

def inside (self : Option (String × GrammarId)) : InsideDef → Work (Option GrammarId)
  | .none => done none
  | .language name => do return some (← language self name)
  | .grammar definition => do return some (← grammar self definition)

end

def define (name : String) (d : GrammarDef) : Work GrammarId := do
  clear
  let root ← reserve
  let compiled ← rules (some (name, root)) d.rules
  let next ← rest (some (name, root)) d.rest
  fill root ⟨.ofList compiled, next⟩
  commit
  enter name root
  return root

def addAlias (name known : String) : Work GrammarId := do
  let id ← language none known
  enter name id
  return id

/-- The rest of a grammar that extends another: its own, or else that of the base. -/
def restOver (self : Option (String × GrammarId)) (base : GrammarId) :
    Option String → Work (Option GrammarId)
  | some next => do return some (← language self next)
  | none => look fun s => .ok ((s.grammar? base).bind Grammar.rest)

def kindOf (id : GrammarId) (kind : String) : Work Unit :=
  look fun s => if (s.rules id).contains kind then .ok () else .error (.unknownKind kind)

def placeIn (id : GrammarId) : Placement → Work Unit
  | .atEnd => done ()
  | .before kind => kindOf id kind

/-- Registers a language as a copy of another with overrides. -/
def extendAt (name base : String) (overrides : GrammarDef) (placement : Placement) :
    Work GrammarId := do
  let baseId ← language none base
  placeIn baseId placement
  let baseRules ← look fun s => .ok (s.rules baseId)
  clear
  let root ← reserve
  let compiled ← rules (some (name, root)) overrides.rules
  let next ← restOver (some (name, root)) baseId overrides.rest
  fill root ⟨Store.mergeRules baseRules (.ofList compiled) placement, next⟩
  commit
  enter name root
  return root

/-- Rebuilds the grammar in a slot with rules right before a kind. -/
def insertBefore (target : GrammarId) (before : String) (d : GrammarDef) : Work Unit := do
  kindOf target before
  -- no slot is reserved: the rules go to one that the store has
  clear
  let compiled ← rules none d.rules
  let old ← look fun s => .ok (s.rules target)
  commit
  rewrite target (Store.spliceBefore before (.ofList compiled) old)

/-- Inserts rules into the grammar that is meant by `inner` and `root`. -/
def insertBeforeLanguage (inner before : String) (d : GrammarDef) (root : Option String) :
    Work GrammarId := do
  let target ← look fun s => s.target inner root
  insertBefore target before d
  return target

def load (format : DataFormat) (name source : String) : Work GrammarId := do
  let d ← look fun _ => GrammarDef.read format source
  define name d

/-- Highlights the text of the elements `tagName` of markup as a language. -/
def addInlined (tagName name : String) : Work Unit := do
  let _ ← insertBeforeLanguage "markup" "tag" (Language.inlined tagName name) none
  return ()

end Work

/-- The operations that change a store. -/
inductive Operation where
  | define (name : String) (d : GrammarDef)
  | extend (name base : String) (overrides : GrammarDef)
  | extendAt (name base : String) (overrides : GrammarDef) (placement : Placement)
  | insertBefore (target : GrammarId) (before : String) (d : GrammarDef)
  | insertBeforeLanguage (inner before : String) (d : GrammarDef) (root : Option String)
  | addAlias (name known : String)
  | load (format : DataFormat) (name source : String)
  | addInlined (tagName name : String)

namespace Operation

/-- The answer of an operation that answers nothing but that it has been done. -/
def silent (r : Except GrammarError Store) : Except GrammarError (Option GrammarId × Store) :=
  r.map fun s => (none, s)

/-- The answer of an operation that answers a slot. -/
def numbered (r : Except GrammarError (GrammarId × Store)) :
    Except GrammarError (Option GrammarId × Store) :=
  r.map fun (id, s) => (some id, s)

/-- What an operation makes of a store. -/
def apply (s : Store) : Operation → Except GrammarError (Option GrammarId × Store)
  | define name d => numbered (s.define name d)
  | extend name base overrides => numbered (s.extend name base overrides)
  | extendAt name base overrides placement => numbered (s.extendAt name base overrides placement)
  | insertBefore target before d => silent (s.insertBefore target before d)
  | insertBeforeLanguage inner before d root =>
    numbered (s.insertBeforeLanguage inner before d root)
  | addAlias name known => numbered (s.addAlias name known)
  | load format name source => numbered (s.load format name source)
  | addInlined tagName name => silent (Language.addInlined s tagName name)

/-- Carries an operation out in place. -/
def perform : Operation → Work (Option GrammarId)
  | define name d => some <$> Work.define name d
  | extend name base overrides => some <$> Work.extendAt name base overrides .atEnd
  | extendAt name base overrides placement =>
    some <$> Work.extendAt name base overrides placement
  | insertBefore target before d => (fun _ => none) <$> Work.insertBefore target before d
  | insertBeforeLanguage inner before d root =>
    some <$> Work.insertBeforeLanguage inner before d root
  | addAlias name known => some <$> Work.addAlias name known
  | load format name source => some <$> Work.load format name source
  | addInlined tagName name => (fun _ => none) <$> Work.addInlined tagName name

end Operation

end SyntaxHue
