import SyntaxHue.Config.Value

/-!
# Tables under construction

A table of a TOML file can be added to in several places, but not in all ways: a table that has
a header has no second one, dotted keys only add to tables that dotted keys have made, and no
key has two values.
-/

namespace SyntaxHue

namespace Toml

/-- How a table came to be. -/
inductive Origin where
  /-- It has a header of its own, or braces. -/
  | stated
  /-- A header names a table inside it. -/
  | implied
  /-- A dotted key names a value inside it. -/
  | dotted
deriving DecidableEq, Repr

mutual

/-- What a key stands for. -/
inductive Item where
  | value (v : Config.Value)
  | table (origin : Origin) (slots : List Slot)
  /-- The tables with one header in double brackets, the last one first. -/
  | tables (bodies : List Body)

/-- A key and what it stands for. -/
inductive Slot where
  | mk (key : String) (item : Item)

/-- The keys of one of several tables. -/
inductive Body where
  | mk (slots : List Slot)

end

namespace Slot

def key : Slot → String
  | mk key _ => key

def item : Slot → Item
  | mk _ item => item

/-- What a key stands for. -/
def find? (key : String) (slots : List Slot) : Option Item :=
  (slots.find? fun s => s.key = key).map Slot.item

/-- Lets a key stand for something else, in its place or behind all others. -/
def put (key : String) (item : Item) : List Slot → List Slot
  | [] => [mk key item]
  | s :: slots => if s.key = key then mk key item :: slots else s :: put key item slots

/-- Changes the table that a path leads to. Tables that are missing on the way are made; the
    last of several tables is entered. -/
def update (byKey : Bool) (change : Origin → List Slot → Option (List Slot)) :
    List String → Origin → List Slot → Option (List Slot)
  | [], origin, slots => change origin slots
  | key :: path, _, slots =>
    match find? key slots with
    | none => do
      let origin := if byKey then .dotted else .implied
      return put key (.table origin (← update byKey change path origin [])) slots
    | some (.table origin inner) =>
      if byKey && origin = .stated then none
      else do return put key (.table origin (← update byKey change path origin inner)) slots
    | some (.tables (.mk inner :: bodies)) => do
      let inner ← update byKey change path .stated inner
      return put key (.tables (.mk inner :: bodies)) slots
    | _ => none

/-- Gives a value to a key with the names `path` before it. -/
def assign (path : List String) (key : String) (v : Config.Value) (origin : Origin)
    (slots : List Slot) : Option (List Slot) :=
  update true (fun origin slots =>
    if (origin == .dotted) == path.isEmpty || (find? key slots).isSome then none
    else some (put key (.value v) slots)) path origin slots

/-- Opens the table with a header. -/
def openTable (path : List String) (key : String) (slots : List Slot) : Option (List Slot) :=
  update false (fun _ slots =>
    match find? key slots with
    | none => some (put key (.table .stated []) slots)
    | some (.table .implied inner) => some (put key (.table .stated inner) slots)
    | _ => none) path .stated slots

/-- Opens one more table with a header in double brackets. -/
def openNext (path : List String) (key : String) (slots : List Slot) : Option (List Slot) :=
  update false (fun _ slots =>
    match find? key slots with
    | none => some (put key (.tables [.mk []]) slots)
    | some (.tables bodies) => some (put key (.tables (.mk [] :: bodies)) slots)
    | _ => none) path .stated slots

end Slot

mutual

/-- The value of what a key stands for. -/
def Item.toValue : Item → Config.Value
  | .value v => v
  | .table _ slots => .table (slotEntries slots)
  | .tables bodies => .list (bodyValues bodies).reverse

/-- The entries of a table. -/
def slotEntries : List Slot → List Config.Entry
  | [] => []
  | .mk key item :: slots => .mk key item.toValue :: slotEntries slots

/-- The values of several tables. -/
def bodyValues : List Body → List Config.Value
  | [] => []
  | body :: bodies => body.toValue :: bodyValues bodies

/-- The value of one of several tables. -/
def Body.toValue : Body → Config.Value
  | .mk slots => .table (slotEntries slots)

end

end Toml

end SyntaxHue
