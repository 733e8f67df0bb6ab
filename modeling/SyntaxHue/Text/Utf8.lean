/-!
# Text measured in bytes

Offsets and lengths that leave the library count UTF-8 bytes. The functions here measure a
list of characters in that unit and cut one at a byte offset.
-/

namespace SyntaxHue

/-- The number of bytes that `cs` takes in UTF-8. -/
def byteLength : List Char → Nat
  | [] => 0
  | c :: cs => c.utf8Size + byteLength cs

@[simp] theorem byteLength_nil : byteLength [] = 0 := rfl

@[simp] theorem byteLength_cons (c : Char) (cs : List Char) :
    byteLength (c :: cs) = c.utf8Size + byteLength cs := rfl

@[simp] theorem byteLength_append (cs ds : List Char) :
    byteLength (cs ++ ds) = byteLength cs + byteLength ds := by
  induction cs with
  | nil => simp
  | cons c cs ih => simp [ih, Nat.add_assoc]

/-- The measure agrees with the size that a string reports. -/
theorem utf8ByteSize_ofList (cs : List Char) : (String.ofList cs).utf8ByteSize = byteLength cs := by
  induction cs with
  | nil => simp
  | cons c cs ih =>
    rw [← List.singleton_append, String.ofList_append, String.utf8ByteSize_append, ih,
      ← String.singleton_eq_ofList, String.utf8ByteSize_singleton]
    simp

/-- Cuts `cs` after its first `n` bytes. There is no cut inside a character or past the end. -/
def splitBytes? (n : Nat) : List Char → Option (List Char × List Char)
  | [] => if n = 0 then some ([], []) else none
  | c :: cs =>
    if n = 0 then some ([], c :: cs)
    else if n < c.utf8Size then none
    else (splitBytes? (n - c.utf8Size) cs).map fun cut => (c :: cut.1, cut.2)

/-- A cut loses nothing and its first part has the length that was asked for. -/
theorem splitBytes?_eq_some {n : Nat} {cs : List Char} {cut : List Char × List Char}
    (h : splitBytes? n cs = some cut) : cs = cut.1 ++ cut.2 ∧ byteLength cut.1 = n := by
  induction cs generalizing n cut with
  | nil =>
    simp only [splitBytes?] at h
    split at h <;> simp_all
    subst h
    simp
  | cons c cs ih =>
    simp only [splitBytes?] at h
    split at h
    · simp_all
      subst h
      simp
    · split at h
      · simp at h
      · rename_i hn
        obtain ⟨inner, hinner, rfl⟩ := Option.map_eq_some_iff.1 h
        have := ih hinner
        constructor
        · simp [← this.1]
        · simp [this.2]
          omega

end SyntaxHue
