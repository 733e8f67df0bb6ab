/-!
# From bytes to text

Bytes that are not UTF-8 are replaced: each longest start of a character that is not continued,
and each byte that starts none, becomes one replacement character.
-/

namespace SyntaxHue

namespace Decoding

/-- A character of which some bytes have been read. -/
structure Begun where
  /-- The number of bytes that are missing. -/
  missing : Nat
  /-- The bits that have been read. -/
  bits : Nat
  /-- The range of the next byte. -/
  least : Nat
  most : Nat

/-- The character that a byte begins. One that is a single byte long misses none. -/
def lead? (b : Nat) : Option Begun :=
  if b < 0x80 then some ⟨0, b, 0x80, 0xBF⟩
  else if b < 0xC2 then none
  else if b < 0xE0 then some ⟨1, b % 32, 0x80, 0xBF⟩
  else if b = 0xE0 then some ⟨2, 0, 0xA0, 0xBF⟩
  else if b = 0xED then some ⟨2, 13, 0x80, 0x9F⟩
  else if b < 0xF0 then some ⟨2, b % 16, 0x80, 0xBF⟩
  else if b = 0xF0 then some ⟨3, 0, 0x90, 0xBF⟩
  else if b < 0xF4 then some ⟨3, b % 8, 0x80, 0xBF⟩
  else if b = 0xF4 then some ⟨3, 4, 0x80, 0x8F⟩
  else none

/-- A character as text, if it misses no byte. -/
def Begun.settle (c : Begun) : List Char × Option Begun :=
  if c.missing = 0 then ([Char.ofNat c.bits], none) else ([], some c)

/-- Reads a byte that begins a character: the text that is complete then, and what has begun. -/
def start (b : Nat) : List Char × Option Begun :=
  match lead? b with
  | none => (['\uFFFD'], none)
  | some c => c.settle

/-- Reads a byte: the text that is complete then, and what has begun. -/
def step : Option Begun → Nat → List Char × Option Begun
  | none, b => start b
  | some c, b =>
    if c.least ≤ b && b ≤ c.most then
      Begun.settle ⟨c.missing - 1, c.bits * 64 + b % 64, 0x80, 0xBF⟩
    else
      let (text, begun) := start b
      ('\uFFFD' :: text, begun)

/-- Decodes bytes from the middle of a character on. -/
def decodeFrom (begun : Option Begun) : List UInt8 → List Char
  | [] => if begun.isSome then ['\uFFFD'] else []
  | b :: bs =>
    let (text, begun) := step begun b.toNat
    text ++ decodeFrom begun bs

/-- The text of bytes. -/
def decode (bytes : ByteArray) : List Char :=
  decodeFrom none bytes.data.toList

/-- The text of bytes that are UTF-8. -/
def decode? (bytes : ByteArray) : Option String :=
  String.fromUTF8? bytes

end Decoding

end SyntaxHue
