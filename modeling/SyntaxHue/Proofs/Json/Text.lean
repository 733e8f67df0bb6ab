import SyntaxHue.Proofs.Json.Literal

/-!
# JSON texts

A JSON text is a row of lexemes: blanks, structural characters, names and numbers, and literals. A
literal is a key or a string by its place in the row. The grammar of JSON is stated over such
rows; from it follows what is behind each literal, which is all that tells keys and strings apart.
-/

namespace SyntaxHue

namespace JsonText

/-! ## Lexemes -/

/-- A lexeme of a JSON text. -/
inductive Lexeme where
  | blank (c : Char)
  /-- A structural character. -/
  | mark (c : Char)
  /-- `true`, `false`, `null` or a number. -/
  | word (cs : List Char)
  /-- The name of a member, without its quotation marks. -/
  | key (body : List Char)
  /-- A string that is a value, without its quotation marks. -/
  | string (body : List Char)
deriving DecidableEq

namespace Lexeme

/-- The text of a lexeme. -/
def chars : Lexeme → List Char
  | .blank c | .mark c => [c]
  | .word cs => cs
  | .key b | .string b => '"' :: b ++ ['"']

/-- What is between the quotation marks of a literal. -/
def body? : Lexeme → Option (List Char)
  | .key b | .string b => some b
  | _ => none

def isKey : Lexeme → Bool
  | .key _ => true
  | _ => false

def isString : Lexeme → Bool
  | .string _ => true
  | _ => false

end Lexeme

/-- The text of some lexemes. -/
def chars (ls : List Lexeme) : List Char :=
  ls.flatMap Lexeme.chars

/-- Where the selected lexemes start and stop, in a text that starts at an offset. -/
def spans (select : Lexeme → Bool) : Nat → List Lexeme → List (Nat × Nat)
  | _, [] => []
  | offset, x :: ls =>
    let stop := offset + byteLength x.chars
    if select x then (offset, stop) :: spans select stop ls else spans select stop ls

@[simp] theorem chars_nil : chars [] = [] := rfl

@[simp] theorem chars_cons (x : Lexeme) (ls : List Lexeme) :
    chars (x :: ls) = x.chars ++ chars ls := rfl

@[simp] theorem chars_append (ls ms : List Lexeme) : chars (ls ++ ms) = chars ls ++ chars ms := by
  simp [chars]

/-! ## The grammar -/

/-- A digit of a number. -/
def IsDigit (c : Char) : Prop :=
  '0' ≤ c ∧ c ≤ '9'

/-- At least one digit. -/
def IsDigits (cs : List Char) : Prop :=
  cs ≠ [] ∧ ∀ c ∈ cs, IsDigit c

/-- An integer part has no leading zeros. -/
def IsInt (cs : List Char) : Prop :=
  cs = ['0'] ∨ ∃ d ds, IsDigit d ∧ d ≠ '0' ∧ (∀ c ∈ ds, IsDigit c) ∧ cs = d :: ds

def IsFraction (cs : List Char) : Prop :=
  cs = [] ∨ ∃ ds, IsDigits ds ∧ cs = '.' :: ds

def IsExponent (cs : List Char) : Prop :=
  cs = [] ∨ ∃ e sign ds, e ∈ ['e', 'E'] ∧ sign ∈ [[], ['+'], ['-']] ∧ IsDigits ds ∧
    cs = e :: (sign ++ ds)

def IsNumber (cs : List Char) : Prop :=
  ∃ sign int fraction exponent, sign ∈ [[], ['-']] ∧ IsInt int ∧ IsFraction fraction ∧
    IsExponent exponent ∧ cs = sign ++ (int ++ (fraction ++ exponent))

/-- A name or a number. -/
def IsWord (cs : List Char) : Prop :=
  cs ∈ ["true".toList, "false".toList, "null".toList] ∨ IsNumber cs

/-- A digit of base 16. -/
def IsHexDigit (c : Char) : Prop :=
  IsDigit c ∨ ('a' ≤ c ∧ c ≤ 'f') ∨ ('A' ≤ c ∧ c ≤ 'F')

/-- What may stand between the quotation marks of a literal. -/
inductive IsBody : List Char → Prop where
  | nil : IsBody []
  | plain {c : Char} {cs : List Char} : ' ' ≤ c → c ≠ '"' → c ≠ '\\' → IsBody cs → IsBody (c :: cs)
  | escape {c : Char} {cs : List Char} : c ∈ ['"', '\\', '/', 'b', 'f', 'n', 'r', 't'] →
      IsBody cs → IsBody ('\\' :: c :: cs)
  | unicode {a b c d : Char} {cs : List Char} : IsHexDigit a → IsHexDigit b → IsHexDigit c →
      IsHexDigit d → IsBody cs → IsBody ('\\' :: 'u' :: a :: b :: c :: d :: cs)

/-- Blanks, or nothing. -/
def IsBlanks (ls : List Lexeme) : Prop :=
  ∀ x ∈ ls, ∃ c ∈ [' ', '\t', '\n', '\r'], x = .blank c

mutual

inductive IsValue : List Lexeme → Prop where
  | word {cs : List Char} : IsWord cs → IsValue [.word cs]
  | string {b : List Char} : IsBody b → IsValue [.string b]
  | emptyArray {w : List Lexeme} : IsBlanks w → IsValue (.mark '[' :: (w ++ [.mark ']']))
  | array {ls : List Lexeme} : IsElements ls → IsValue (.mark '[' :: (ls ++ [.mark ']']))
  | emptyObject {w : List Lexeme} : IsBlanks w → IsValue (.mark '{' :: (w ++ [.mark '}']))
  | object {ls : List Lexeme} : IsMembers ls → IsValue (.mark '{' :: (ls ++ [.mark '}']))

/-- A value with blanks around it. -/
inductive IsElement : List Lexeme → Prop where
  | mk {w v w' : List Lexeme} : IsBlanks w → IsValue v → IsBlanks w' → IsElement (w ++ (v ++ w'))

inductive IsElements : List Lexeme → Prop where
  | one {ls : List Lexeme} : IsElement ls → IsElements ls
  | more {ls ms : List Lexeme} : IsElement ls → IsElements ms →
      IsElements (ls ++ (.mark ',' :: ms))

inductive IsMember : List Lexeme → Prop where
  | mk {w w' ls : List Lexeme} {b : List Char} : IsBlanks w → IsBody b → IsBlanks w' →
      IsElement ls → IsMember (w ++ (.key b :: (w' ++ (.mark ':' :: ls))))

inductive IsMembers : List Lexeme → Prop where
  | one {ls : List Lexeme} : IsMember ls → IsMembers ls
  | more {ls ms : List Lexeme} : IsMember ls → IsMembers ms → IsMembers (ls ++ (.mark ',' :: ms))

end

/-- The lexemes of a JSON text. -/
def IsJson (ls : List Lexeme) : Prop :=
  IsElement ls

/-! ## What is behind a literal -/

/-- A lexeme as it occurs in a JSON text. -/
def Lexeme.Sound : Lexeme → Prop
  | .blank c => c ∈ [' ', '\t', '\n', '\r']
  | .mark c => c ∈ ['[', ']', '{', '}', ',', ':']
  | .word cs => IsWord cs
  | .key b | .string b => IsBody b

/-- A colon comes first, perhaps behind blanks. -/
def BeforeColon : List Lexeme → Prop
  | .blank _ :: ls => BeforeColon ls
  | .mark c :: _ => c = ':'
  | _ => False

/-- The text ends, or another structural character than a colon comes first, perhaps behind
    blanks. -/
def BeforeEnd : List Lexeme → Prop
  | [] => True
  | .blank _ :: ls => BeforeEnd ls
  | .mark c :: _ => c ≠ ':'
  | _ => False

/-- What is right behind a lexeme of a JSON text. -/
def Lexeme.Followed : Lexeme → List Lexeme → Prop
  | .key _, ls => BeforeColon ls
  | .string _, ls => BeforeEnd ls
  | _, _ => True

/-- Each lexeme is sound, and keys and strings are told apart by what is behind them. -/
def Told : List Lexeme → Prop
  | [] => True
  | x :: ls => (x.Sound ∧ x.Followed ls) ∧ Told ls

theorem IsBlanks.cons {x : Lexeme} {w : List Lexeme} (h : IsBlanks (x :: w)) :
    (∃ c ∈ [' ', '\t', '\n', '\r'], x = .blank c) ∧ IsBlanks w :=
  List.forall_mem_cons.1 h

theorem IsBlanks.beforeColon {w ls : List Lexeme} (hw : IsBlanks w) (h : BeforeColon ls) :
    BeforeColon (w ++ ls) := by
  induction w with
  | nil => exact h
  | cons x w ih =>
    obtain ⟨⟨c, -, rfl⟩, hrest⟩ := hw.cons
    exact ih hrest

theorem IsBlanks.beforeEnd {w ls : List Lexeme} (hw : IsBlanks w) (h : BeforeEnd ls) :
    BeforeEnd (w ++ ls) := by
  induction w with
  | nil => exact h
  | cons x w ih =>
    obtain ⟨⟨c, -, rfl⟩, hrest⟩ := hw.cons
    exact ih hrest

theorem IsBlanks.told {w ls : List Lexeme} (hw : IsBlanks w) (h : Told ls) : Told (w ++ ls) := by
  induction w with
  | nil => exact h
  | cons x w ih =>
    obtain ⟨⟨c, hc, rfl⟩, hrest⟩ := hw.cons
    exact ⟨⟨hc, trivial⟩, ih hrest⟩

theorem told_mark {c : Char} {ls : List Lexeme} (hc : c ∈ ['[', ']', '{', '}', ',', ':'])
    (h : Told ls) : Told (.mark c :: ls) :=
  ⟨⟨hc, trivial⟩, h⟩

mutual

/-- In front of what may follow a value, the lexemes of a value keep to what tells keys and
    strings apart. -/
theorem IsValue.told {ls more : List Lexeme} (h : IsValue ls) (hend : BeforeEnd more)
    (hmore : Told more) : Told (ls ++ more) :=
  match h with
  | .word hcs => ⟨⟨hcs, trivial⟩, hmore⟩
  | .string hb => ⟨⟨hb, hend⟩, hmore⟩
  | .emptyArray hw => by
    rw [List.cons_append, List.append_assoc]
    exact told_mark (by simp) (hw.told (told_mark (by simp) hmore))
  | .array hls => by
    have hclose : Told (.mark ']' :: more) := told_mark (by simp) hmore
    rw [List.cons_append, List.append_assoc]
    exact told_mark (by simp) (hls.told (by simp [BeforeEnd]) hclose)
  | .emptyObject hw => by
    rw [List.cons_append, List.append_assoc]
    exact told_mark (by simp) (hw.told (told_mark (by simp) hmore))
  | .object hls => by
    have hclose : Told (.mark '}' :: more) := told_mark (by simp) hmore
    rw [List.cons_append, List.append_assoc]
    exact told_mark (by simp) (hls.told (by simp [BeforeEnd]) hclose)

theorem IsElement.told {ls more : List Lexeme} (h : IsElement ls) (hend : BeforeEnd more)
    (hmore : Told more) : Told (ls ++ more) :=
  match h with
  | .mk hw hv hw' => by
    rw [List.append_assoc, List.append_assoc]
    exact hw.told (hv.told (hw'.beforeEnd hend) (hw'.told hmore))

theorem IsElements.told {ls more : List Lexeme} (h : IsElements ls) (hend : BeforeEnd more)
    (hmore : Told more) : Told (ls ++ more) :=
  match h with
  | .one he => he.told hend hmore
  | .more he hrest => by
    have hcomma := told_mark (c := ',') (by simp) (hrest.told hend hmore)
    rw [List.append_assoc, List.cons_append]
    exact he.told (by simp [BeforeEnd]) hcomma

theorem IsMember.told {ls more : List Lexeme} (h : IsMember ls) (hend : BeforeEnd more)
    (hmore : Told more) : Told (ls ++ more) :=
  match h with
  | .mk hw hb hw' he => by
    have hrest := told_mark (c := ':') (by simp) (he.told hend hmore)
    simp only [List.append_assoc, List.cons_append]
    exact hw.told ⟨⟨hb, hw'.beforeColon rfl⟩, hw'.told hrest⟩

theorem IsMembers.told {ls more : List Lexeme} (h : IsMembers ls) (hend : BeforeEnd more)
    (hmore : Told more) : Told (ls ++ more) :=
  match h with
  | .one hm => hm.told hend hmore
  | .more hm hrest => by
    have hcomma := told_mark (c := ',') (by simp) (hrest.told hend hmore)
    rw [List.append_assoc, List.cons_append]
    exact hm.told (by simp [BeforeEnd]) hcomma

end

theorem IsJson.told {ls : List Lexeme} (h : IsJson ls) : Told ls := by
  rw [← List.append_nil ls]
  exact IsElement.told h trivial trivial

/-- A text that begins with a literal has no other one. -/
theorem IsJson.lone {x : Lexeme} {ls : List Lexeme} (h : IsJson (x :: ls)) (hx : x.body?.isSome) :
    ∀ y ∈ ls, y.body? = none := by
  generalize hxs : x :: ls = xs at h
  cases h with
  | @mk w v w' hw hv hw' =>
    cases w with
    | cons y w =>
      obtain ⟨⟨c, -, rfl⟩, -⟩ := hw.cons
      cases hxs
      simp [Lexeme.body?] at hx
    | nil =>
      cases hv with
      | string hb =>
        cases hxs
        intro y hy
        obtain ⟨c, -, rfl⟩ := hw' y hy
        rfl
      | _ =>
        cases hxs
        simp [Lexeme.body?] at hx

end JsonText

end SyntaxHue
