import SyntaxHue.Text.Utf8

/-!
# Positions in a text

A `Cursor` is a text together with a place between two of its characters. Since it is made of
the characters on either side, every cursor stands on a character boundary.
-/

namespace SyntaxHue

/-- A place in a text. -/
structure Cursor where
  /-- The characters before the place, nearest first. -/
  before : List Char
  /-- The characters after the place. -/
  after : List Char
  /-- The bytes before the place. -/
  offset : Nat
  offset_eq : offset = byteLength before.reverse

namespace Cursor

/-- The place before the first character of `cs`. -/
def start (cs : List Char) : Cursor :=
  ⟨[], cs, 0, rfl⟩

/-- The text that the cursor stands in. -/
def text (c : Cursor) : List Char :=
  c.before.reverse ++ c.after

/-- The character after the cursor and the place behind it. -/
def next? (c : Cursor) : Option (Char × Cursor) :=
  match c.after with
  | [] => none
  | x :: xs => some (x, ⟨x :: c.before, xs, c.offset + x.utf8Size, by simp [c.offset_eq]⟩)

/-- The place one character back. -/
def back? (c : Cursor) : Option Cursor :=
  match h : c.before with
  | [] => none
  | x :: xs => some ⟨xs, x :: c.after, c.offset - x.utf8Size, by
      have := c.offset_eq
      simp [h] at this
      omega⟩

/-- The place `n` characters back. -/
def backBy? (c : Cursor) : Nat → Option Cursor
  | 0 => some c
  | n + 1 => c.back?.bind (·.backBy? n)

/-- The character before the cursor. -/
def prevChar? (c : Cursor) : Option Char :=
  c.before.head?

/-- The character after the cursor. -/
def nextChar? (c : Cursor) : Option Char :=
  c.after.head?

/-- Moves over the characters of `rest`, which follow the cursor, as long as fewer than `n` bytes
    have been passed. -/
def forwardOver (c : Cursor) : List Char → Nat → Cursor
  | [], _ => c
  | _ :: rest, n =>
    if n = 0 then c
    else
      match c.next? with
      | some (x, there) => there.forwardOver rest (n - x.utf8Size)
      | none => c

/-- The place `n` bytes on, or the end of the text. -/
def forward (c : Cursor) (n : Nat) : Cursor :=
  c.forwardOver c.after n

/-- The place `n` bytes into `cs`, if that is on a character boundary. -/
def at? (cs : List Char) (n : Nat) : Option Cursor :=
  match h : splitBytes? n cs with
  | none => none
  | some cut => some ⟨cut.1.reverse, cut.2, n, by
      simp [(splitBytes?_eq_some h).2]⟩

@[simp] theorem text_start (cs : List Char) : (start cs).text = cs := by
  simp [start, text]

theorem text_of_next? {c d : Cursor} {x : Char} (h : c.next? = some (x, d)) :
    d.text = c.text := by
  unfold next? at h
  split at h
  · simp at h
  · rename_i xs hx
    simp only [Option.some.injEq, Prod.mk.injEq] at h
    obtain ⟨rfl, rfl⟩ := h
    simp [text, hx]

theorem text_of_back? {c d : Cursor} (h : c.back? = some d) : d.text = c.text := by
  unfold back? at h
  split at h
  · simp at h
  · rename_i x xs hx
    simp only [Option.some.injEq] at h
    subst h
    simp [text, hx]

end Cursor

/-- The stretch of a text between two places in it. -/
structure Span where
  start : Cursor
  stop : Cursor

namespace Span

/-- Takes the first `n` bytes of `cs`. -/
def takeBytes : Nat → List Char → List Char
  | _, [] => []
  | n, c :: cs => if n = 0 then [] else c :: takeBytes (n - c.utf8Size) cs

/-- The characters of the span. -/
def chars (s : Span) : List Char :=
  takeBytes (s.stop.offset - s.start.offset) s.start.after

/-- The bytes that the span takes. -/
def length (s : Span) : Nat :=
  s.stop.offset - s.start.offset

end Span

end SyntaxHue
