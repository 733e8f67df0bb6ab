import SyntaxHue.Json.Lexeme

/-!
# The values of JSON text

A value is read from its lexemes by a machine with a stack: the frames are the lists and records
that are still open, innermost first. The number of open frames is limited.
-/

namespace SyntaxHue

namespace Json

/-- A list or record that is open. Its parts are in reverse order. -/
inductive Frame where
  | list (items : List Datum)
  /-- `key` is the key of the field whose value comes next. -/
  | record (fields : List Field) (key : String)

/-- What has to come next. -/
inductive Expected where
  | value
  /-- A value or the end of the list that was just opened. -/
  | firstItem
  | key
  /-- A key or the end of the record that was just opened. -/
  | firstKey
  | colon
  /-- A comma or the end of the innermost frame. -/
  | more
  /-- Nothing: the text is complete. -/
  | nothing (value : Datum)

/-- A state of the machine. -/
structure State where
  frames : List Frame
  expected : Expected

namespace State

/-- The state before the first lexeme. -/
def initial : State := ⟨[], .value⟩

/-- The state after a value inside `frames`. -/
def place (value : Datum) : List Frame → State
  | [] => ⟨[], .nothing value⟩
  | .list items :: frames => ⟨.list (value :: items) :: frames, .more⟩
  | .record fields key :: frames =>
    ⟨.record (.mk (.text key) value :: fields) "" :: frames, .more⟩

/-- The state after a list or record is opened, if there may be one more. -/
def enter (limit : Nat) (frames : List Frame) (frame : Frame) (expected : Expected) :
    Option State :=
  if frames.length < limit then some ⟨frame :: frames, expected⟩ else none

/-- The state after a lexeme where a value may stand. -/
def value (limit : Nat) (frames : List Frame) : Lexeme → Option State
  | .openList => enter limit frames (.list []) .firstItem
  | .openRecord => enter limit frames (.record [] "") .firstKey
  | .text s => some (place (.text s) frames)
  | .scalar v => some (place v frames)
  | _ => none

/-- The state after a lexeme where a key may stand. -/
def key (frames : List Frame) : Lexeme → Option State
  | .text s =>
    match frames with
    | .record fields _ :: frames => some ⟨.record fields s :: frames, .colon⟩
    | _ => none
  | _ => none

/-- The state after the end of the innermost frame. -/
def close (frames : List Frame) : Lexeme → Option State
  | .closeList =>
    match frames with
    | .list items :: frames => some (place (.list items.reverse) frames)
    | _ => none
  | .closeRecord =>
    match frames with
    | .record fields _ :: frames => some (place (.record fields.reverse) frames)
    | _ => none
  | _ => none

/-- The state after a lexeme. There are at most `limit` frames. -/
def next (limit : Nat) (s : State) (x : Lexeme) : Option State :=
  match s.expected with
  | .value => value limit s.frames x
  | .firstItem => (close s.frames x).or (value limit s.frames x)
  | .key => key s.frames x
  | .firstKey => (close s.frames x).or (key s.frames x)
  | .colon =>
    match x with
    | .colon => some ⟨s.frames, .value⟩
    | _ => none
  | .more =>
    match x, s.frames with
    | .comma, .list _ :: _ => some ⟨s.frames, .value⟩
    | .comma, .record _ _ :: _ => some ⟨s.frames, .key⟩
    | x, frames => close frames x
  | .nothing _ => none

/-- The state after lexemes. -/
def run (limit : Nat) : State → List Lexeme → Option State
  | s, [] => some s
  | s, x :: xs => (s.next limit x).bind fun s => run limit s xs

/-- The value that was read. -/
def result? (s : State) : Option Datum :=
  match s.expected with
  | .nothing value => some value
  | _ => none

end State

/-- The value of a text in which lists and records are at most `limit` deep. -/
def readWithin (limit : Nat) (cs : List Char) : Option Datum := do
  let lexemes ← Lexeme.scan cs
  let state ← State.initial.run limit lexemes
  state.result?

/-- How deep lists and records may be in a text. -/
def depthLimit : Nat := 127

/-- The value of a text. -/
def read (cs : List Char) : Option Datum :=
  readWithin depthLimit cs

end Json

end SyntaxHue
