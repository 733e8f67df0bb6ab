import SyntaxHue.Grammar.Store

/-!
# Bytes of a text

What is encoded in UTF-8 is decoded to itself: the first byte of a character tells how many bytes
come after it and in which range the second one is, and each of those adds six bits. So it makes
no difference that patterns are read from their bytes.
-/

namespace SyntaxHue

namespace Decoding

theorem decodeFrom_one {b : UInt8} (h : b.toNat < 0x80) (bs : List UInt8) :
    decodeFrom none (b :: bs) = Char.ofNat b.toNat :: decodeFrom none bs := by
  simp [decodeFrom, step, start, lead?, h, Begun.settle]

variable {v n bits least most missing : Nat} {c : Begun}

theorem decodeFrom_lead (hn : n < 256) (h : lead? n = some c) (hc : c.missing ≠ 0)
    (bs : List UInt8) : decodeFrom none (UInt8.ofNat n :: bs) = decodeFrom (some c) bs := by
  simp [decodeFrom, step, start, Nat.mod_eq_of_lt hn, h, Begun.settle, hc]

theorem decodeFrom_more (hleast : least ≤ n % 0x40 + 0x80) (hmost : n % 0x40 + 0x80 ≤ most)
    (bs : List UInt8) :
    decodeFrom (some ⟨missing + 2, bits, least, most⟩) (UInt8.ofNat (n % 0x40 + 0x80) :: bs) =
      decodeFrom (some ⟨missing + 1, bits * 64 + n % 64, 0x80, 0xBF⟩) bs := by
  have hbyte : (n % 64 + 128) % 256 = n % 64 + 128 := by omega
  have hbits : (n + 128) % 64 = n % 64 := by omega
  simp [decodeFrom, step, hbyte, hbits, hleast, hmost, Begun.settle]

theorem decodeFrom_last (hleast : least ≤ n % 0x40 + 0x80) (hmost : n % 0x40 + 0x80 ≤ most)
    (bs : List UInt8) :
    decodeFrom (some ⟨1, bits, least, most⟩) (UInt8.ofNat (n % 0x40 + 0x80) :: bs) =
      Char.ofNat (bits * 64 + n % 64) :: decodeFrom none bs := by
  have hbyte : (n % 64 + 128) % 256 = n % 64 + 128 := by omega
  have hbits : (n + 128) % 64 = n % 64 := by omega
  simp [decodeFrom, step, hbyte, hbits, hleast, hmost, Begun.settle]

theorem lead?_two (h : 0x7F < v) (h' : v ≤ 0x7FF) :
    lead? (v / 64 % 0x20 + 0xC0) = some ⟨1, v / 64, 0x80, 0xBF⟩ := by
  have hbits : (v / 64 % 0x20 + 0xC0) % 32 = v / 64 := by omega
  unfold lead?
  rw [if_neg (by omega), if_neg (by omega), if_pos (by omega), hbits]

/-- The first of three bytes tells which second bytes there are. -/
theorem lead?_three (h : 0x7FF < v) (h' : v ≤ 0xFFFF) (hv : v < 0xD800 ∨ 0xDFFF < v) :
    ∃ least most, lead? (v / 4096 % 0x10 + 0xE0) = some ⟨2, v / 4096, least, most⟩ ∧
      least ≤ v / 64 % 0x40 + 0x80 ∧ v / 64 % 0x40 + 0x80 ≤ most := by
  unfold lead?
  by_cases hlow : v / 4096 = 0
  · refine ⟨0xA0, 0xBF, ?_, by omega, by omega⟩
    rw [if_neg (by omega), if_neg (by omega), if_neg (by omega), if_pos (by omega), hlow]
  · by_cases hmiddle : v / 4096 = 13
    · refine ⟨0x80, 0x9F, ?_, by omega, by omega⟩
      rw [if_neg (by omega), if_neg (by omega), if_neg (by omega), if_neg (by omega),
        if_pos (by omega), hmiddle]
    · have hbits : (v / 4096 % 0x10 + 0xE0) % 16 = v / 4096 := by omega
      refine ⟨0x80, 0xBF, ?_, by omega, by omega⟩
      rw [if_neg (by omega), if_neg (by omega), if_neg (by omega), if_neg (by omega),
        if_neg (by omega), if_pos (by omega), hbits]

/-- The first of four bytes tells which second bytes there are. -/
theorem lead?_four (h : 0xFFFF < v) (h' : v < 0x110000) :
    ∃ least most, lead? (v / 262144 % 0x08 + 0xF0) = some ⟨3, v / 262144, least, most⟩ ∧
      least ≤ v / 4096 % 0x40 + 0x80 ∧ v / 4096 % 0x40 + 0x80 ≤ most := by
  unfold lead?
  rw [if_neg (by omega), if_neg (by omega), if_neg (by omega), if_neg (by omega),
    if_neg (by omega), if_neg (by omega)]
  by_cases hlow : v / 262144 = 0
  · refine ⟨0x90, 0xBF, ?_, by omega, by omega⟩
    rw [if_pos (by omega), hlow]
  · by_cases hhigh : v / 262144 = 4
    · refine ⟨0x80, 0x8F, ?_, by omega, by omega⟩
      rw [if_neg (by omega), if_neg (by omega), if_pos (by omega), hhigh]
    · have hbits : (v / 262144 % 0x08 + 0xF0) % 8 = v / 262144 := by omega
      refine ⟨0x80, 0xBF, ?_, by omega, by omega⟩
      rw [if_neg (by omega), if_pos (by omega), hbits]

/-- What encodes a character is decoded to that character. -/
theorem decodeFrom_utf8EncodeChar (c : Char) (bs : List UInt8) :
    decodeFrom none (String.utf8EncodeChar c ++ bs) = c :: decodeFrom none bs := by
  have hvalid : c.val.toNat < 0xD800 ∨ 0xDFFF < c.val.toNat ∧ c.val.toNat < 0x110000 := c.valid
  have hchar : Char.ofNat c.val.toNat = c := Char.ofNat_toNat c
  unfold String.utf8EncodeChar
  generalize c.val.toNat = v at hvalid hchar ⊢
  dsimp only
  split
  · have hbyte : (UInt8.ofNat v).toNat = v := by
      rw [UInt8.toNat_ofNat', Nat.mod_eq_of_lt (by omega)]
    rw [List.cons_append, List.nil_append, decodeFrom_one (by omega), hbyte, hchar]
  · split
    · have hlead : lead? (v / 64 % 0x20 + 0xC0) = some ⟨1, v / 64, 0x80, 0xBF⟩ :=
        lead?_two (by omega) (by omega)
      have hbits : v / 64 * 64 + v % 64 = v := by omega
      simp only [List.cons_append, List.nil_append]
      rw [decodeFrom_lead (by omega) hlead (by simp), decodeFrom_last (by omega) (by omega),
        hbits, hchar]
    · split
      · obtain ⟨least, most, hlead, hleast, hmost⟩ :=
          lead?_three (v := v) (by omega) (by omega) (by omega)
        have hbits : (v / 4096 * 64 + v / 64 % 64) * 64 + v % 64 = v := by omega
        simp only [List.cons_append, List.nil_append]
        rw [decodeFrom_lead (by omega) hlead (by simp), decodeFrom_more hleast hmost,
          decodeFrom_last (by omega) (by omega), hbits, hchar]
      · obtain ⟨least, most, hlead, hleast, hmost⟩ := lead?_four (v := v) (by omega) (by omega)
        have hbits : ((v / 262144 * 64 + v / 4096 % 64) * 64 + v / 64 % 64) * 64 + v % 64 = v := by
          omega
        simp only [List.cons_append, List.nil_append]
        rw [decodeFrom_lead (by omega) hlead (by simp), decodeFrom_more hleast hmost,
          decodeFrom_more (by omega) (by omega), decodeFrom_last (by omega) (by omega), hbits,
          hchar]

theorem decodeFrom_flatMap (cs : List Char) :
    decodeFrom none (cs.flatMap String.utf8EncodeChar) = cs := by
  induction cs with
  | nil => rfl
  | cons c cs ih => rw [List.flatMap_cons, decodeFrom_utf8EncodeChar, ih]

/-- The bytes of a text are decoded to its characters. -/
@[simp] theorem decode_toByteArray (s : String) : decode s.toByteArray = s.toList := by
  obtain ⟨cs, rfl⟩ : ∃ cs, s = String.ofList cs := ⟨s.toList, String.ofList_toList.symm⟩
  rw [decode, String.toByteArray_ofList, List.utf8Encode, List.toList_data_toByteArray,
    decodeFrom_flatMap, String.toList_ofList]

end Decoding

/-- A pattern is compiled from its characters. -/
theorem Compiler.regex_eq (kind source : String) :
    Compiler.regex kind source =
      (Regex.compile source.toList).mapError (.invalidPattern kind source) := by
  rw [regex, Decoding.decode_toByteArray]
  cases Regex.compile source.toList with
  | ok r => rfl
  | error cause => rfl

theorem Compiler.exists_regex_of_isOk {kind source : String}
    (h : (Compiler.regex kind source).isOk = true) : ∃ r, Compiler.regex kind source = .ok r := by
  cases hr : Compiler.regex kind source with
  | error e => simp [hr, Except.isOk, Except.toBool] at h
  | ok r => exact ⟨r, rfl⟩

/-- A pattern that compiles, with what was checked of the result. -/
theorem Compiler.exists_regex {kind source : String} {check : Regex → Bool}
    (h : (Compiler.regex kind source).toOption.any check = true) :
    ∃ r, Compiler.regex kind source = .ok r ∧ check r = true := by
  cases hr : Compiler.regex kind source with
  | error e => simp [hr, Except.toOption] at h
  | ok r =>
    rw [hr] at h
    exact ⟨r, rfl, h⟩

end SyntaxHue
