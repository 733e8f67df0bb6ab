import SyntaxHue.Token.Tree

/-!
# Linked streams of nodes

A `TokenStream` is a doubly linked list whose cells are never reused. Cell 0 stands before the
first value and cell 1 behind the last; they hold no value and are always there. A removed cell
keeps its value and its own links, so that a cursor which rests on it can still move on.
-/

namespace SyntaxHue

/-- A cell of a stream: its value and its neighbours. -/
structure StreamCell where
  value : Option Node
  prev : Nat
  next : Nat

instance : Inhabited StreamCell := ⟨⟨none, 0, 0⟩⟩

/-- A linked list of nodes. -/
structure TokenStream where
  cells : Array StreamCell
  /-- The number of values in 64 bits: one more for each insertion, one less for each value that a
      removal passes. Removals behind a cell that was itself removed can pass a value again. -/
  len : UInt64

namespace TokenStream

/-- The cell before the first value. -/
def head : Nat := 0

/-- The cell behind the last value. -/
def tail : Nat := 1

/-- The stream without values. -/
def empty : TokenStream :=
  ⟨#[⟨none, head, tail⟩, ⟨none, head, tail⟩], 0⟩

def isEmpty (s : TokenStream) : Bool :=
  s.len == 0

/-- The cell behind `id`. -/
def next (s : TokenStream) (id : Nat) : Nat :=
  (s.cells[id]?.map StreamCell.next).getD tail

/-- The cell before `id`. -/
def prev (s : TokenStream) (id : Nat) : Nat :=
  (s.cells[id]?.map StreamCell.prev).getD head

/-- The value of a cell. -/
def value? (s : TokenStream) (id : Nat) : Option Node :=
  s.cells[id]?.bind StreamCell.value

/-- The length of the text that a cell stands for, in bytes. -/
def nodeLength (s : TokenStream) (id : Nat) : Nat :=
  ((s.value? id).map Node.length).getD 0

/-- Makes `next` the cell behind `id`, and `id` the cell before `next`. -/
def link (cells : Array StreamCell) (id next : Nat) : Array StreamCell :=
  (cells.modify id fun c => { c with next := next }).modify next fun c => { c with prev := id }

/-- Puts a value into a new cell right behind `id`. Returns the new cell. -/
def insertAfter (s : TokenStream) (id : Nat) (value : Node) : Nat × TokenStream :=
  let new := s.cells.size
  let next := s.next id
  let cells := s.cells.push ⟨some value, id, next⟩
  (new, ⟨link (link cells id new) new next, s.len + 1⟩)

/-- The cell `count` steps behind `id`, or the tail if that comes first, and the number of steps
    up to it. -/
def walk (s : TokenStream) (id : Nat) : Nat → Nat × Nat
  | 0 => (id, 0)
  | count + 1 =>
    if id = tail then (id, 0)
    else
      let (last, steps) := s.walk (s.next id) count
      (last, steps + 1)

/-- Unlinks up to `count` cells behind `id`, and returns how many there were. -/
def removeAfter (s : TokenStream) (id count : Nat) : Nat × TokenStream :=
  let (next, removed) := s.walk (s.next id) (min count s.cells.size)
  (removed, ⟨link s.cells id next, s.len - UInt64.ofNat removed⟩)

/-- The cells from `id` on, up to the tail. -/
def cellsFrom (s : TokenStream) : Nat → Nat → List Nat
  | 0, _ => []
  | fuel + 1, id => if id = tail then [] else id :: s.cellsFrom fuel (s.next id)

/-- The values from `id` on, up to the tail or a cell without a value. -/
def valuesFrom (s : TokenStream) : Nat → Nat → List Node
  | 0, _ => []
  | fuel + 1, id =>
    if id = tail then []
    else
      match s.value? id with
      | none => []
      | some value => value :: s.valuesFrom fuel (s.next id)

/-- The values that going through the stream yields. -/
def values (s : TokenStream) : List Node :=
  s.valuesFrom s.cells.size (s.next head)

/-- The values in order. -/
def toList (s : TokenStream) : List Node :=
  (s.cellsFrom s.cells.size (s.next head)).filterMap s.value?

end TokenStream

end SyntaxHue
