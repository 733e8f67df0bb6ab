import SyntaxHue.Json.Print
import SyntaxHue.Proofs.Json.Value
import Mathlib.Data.Nat.Digits.Defs

/-!
# Reading what was printed

What is printed of a value is a text of it, at any level, so it is read as that value again.
-/

namespace SyntaxHue

namespace Json

open JsonText (IsDigit IsInt)

/-! ### Strings -/

theorem unit?_control : ∀ n < 0x20,
    unit? '0' '0' (Nat.digitChar (n / 16)) (Nat.digitChar (n % 16)) = some n := by
  decide

theorem Denotes.escaped {body s : List Char} (h : Denotes body s) (c : Char) :
    Denotes (Json.escape c ++ body) (c :: s) := by
  unfold Json.escape
  split
  case h_8 hquote hslash _ _ _ _ _ =>
    split
    · next hcontrol =>
      have hsmall : isHigh c.toNat = false ∧ isLow c.toNat = false := by
        simp only [isHigh, isLow, Bool.and_eq_false_iff, decide_eq_false_iff_not]
        omega
      have hchar := Denotes.unicode (unit?_control c.toNat hcontrol) hsmall.1 hsmall.2 h
      rwa [Char.ofNat_toNat] at hchar
    · next hcontrol =>
      exact .plain (Nat.not_lt.1 hcontrol) hquote hslash h
  all_goals exact .escape rfl h

theorem denotes_flatMap_escape (s : List Char) : Denotes (s.flatMap Json.escape) s := by
  induction s with
  | nil => exact .nil
  | cons c s ih => exact ih.escaped c

theorem written_quote (s : String) : (Lexeme.text s).Written (quote s) :=
  ⟨_, denotes_flatMap_escape s.toList, rfl⟩

/-! ### Numbers -/

theorem digitChar_lt : ∀ n < 10, ('0' ≤ n.digitChar ∧ n.digitChar ≤ '9') ∧
    (n.digitChar = '0' → n = 0) ∧ (Digits.value? n.digitChar).getD 0 = n := by
  decide

theorem toNat_concat (ds : List Char) (d : Char) :
    Digits.toNat 10 (ds ++ [d]) = Digits.toNat 10 ds * 10 + (Digits.value? d).getD 0 := by
  rw [Digits.toNat, List.foldl_append]
  rfl

/-- The digits of a natural number have no leading zeros, and make that number again. -/
theorem isInt_toDigits (n : Nat) :
    IsInt (Nat.toDigits 10 n) ∧ Digits.toNat 10 (Nat.toDigits 10 n) = n := by
  -- only zero itself begins with a zero
  have hdigits : ∀ m : Nat, 0 < m → ∃ d ds, Nat.toDigits 10 m = d :: ds ∧ IsDigit d ∧ d ≠ '0' ∧
      (∀ c ∈ ds, IsDigit c) ∧ Digits.toNat 10 (d :: ds) = m := by
    intro m
    induction m using Nat.strongRecOn with
    | ind m ih =>
      intro hpos
      by_cases hm : m < 10
      · obtain ⟨hdigit, hzero, hvalue⟩ := digitChar_lt m hm
        refine ⟨m.digitChar, [], Nat.toDigits_of_lt_base hm, hdigit, ?_, List.forall_mem_nil _, ?_⟩
        · exact fun h => Nat.ne_of_gt hpos (hzero h)
        · simpa [Digits.toNat] using hvalue
      · obtain ⟨d, ds, hfront, hd, hne, hds, hvalue⟩ := ih (m / 10) (by omega) (by omega)
        obtain ⟨hdigit, -, hlast⟩ := digitChar_lt (m % 10) (Nat.mod_lt m (by omega))
        refine ⟨d, ds ++ [(m % 10).digitChar], ?_, hd, hne, ?_, ?_⟩
        · rw [Nat.toDigits_of_base_le (by omega) (by omega), hfront, List.cons_append]
        · rw [List.forall_mem_append]
          exact ⟨hds, List.forall_mem_singleton.2 hdigit⟩
        · rw [← List.cons_append, toNat_concat, hvalue, hlast, Nat.div_add_mod']
  rcases Nat.eq_zero_or_pos n with rfl | hpos
  · exact ⟨.inl rfl, rfl⟩
  · obtain ⟨d, ds, hall, hd, hne, hds, hvalue⟩ := hdigits n hpos
    rw [hall]
    exact ⟨.inr ⟨d, ds, hd, hne, hds, rfl⟩, hvalue⟩

/-! ### Values -/

/-- A number that is not natural is kept as it was written, so it has to be one. -/
def Lexeme.Printable : Lexeme → Prop
  | .scalar (.number written) => JsonText.IsNumber written.toList ∧ ¬ IsInt written.toList
  | _ => True

theorem Writes.newLine {xs : List Lexeme} {cs : List Char} (h : Writes xs cs) (level : Nat) :
    Writes xs (newLine level ++ cs) := by
  have hspaces : ∀ n, Writes xs (List.replicate n ' ' ++ cs) := by
    intro n
    induction n with
    | zero => exact h
    | succ n ih => exact .blank (by decide) ih
  exact .blank (by decide) (hspaces (2 * level))

theorem numberEnds_newLine (level : Nat) (cs : List Char) : NumberEnds (newLine level ++ cs) := by
  simp [NumberEnds, newLine, IsDigit]

theorem NumberEnds.printItems {cs : List Char} (h : NumberEnds cs) (level : Nat)
    (items : List Datum) : NumberEnds (printItems level items ++ cs) := by
  cases items with
  | nil => exact h
  | cons => simp [NumberEnds, Json.printItems, IsDigit]

theorem NumberEnds.printFields {cs : List Char} (h : NumberEnds cs) (level : Nat)
    (fields : List Field) : NumberEnds (printFields level fields ++ cs) := by
  cases fields with
  | nil => exact h
  | cons => simp [NumberEnds, Json.printFields, IsDigit]

mutual

/-- A printed value is a text of it, in front of any other one. -/
theorem writes_print (v : Datum) (level : Nat) (h : ∀ x ∈ v.lexemes, x.Printable)
    {xs : List Lexeme} {cs : List Char} (hends : NumberEnds cs) (hcs : Writes xs cs) :
    Writes (v.lexemes ++ xs) (print level v ++ cs) := by
  match v with
  | .null => exact .lexeme (x := .scalar .null) rfl nofun hcs
  | .bool true => exact .lexeme (x := .scalar (.bool true)) rfl nofun hcs
  | .bool false => exact .lexeme (x := .scalar (.bool false)) rfl nofun hcs
  | .natural n => exact .lexeme (x := .scalar (.natural n)) (isInt_toDigits n) (fun _ => hends) hcs
  | .number written =>
    have hnumber := h _ List.mem_cons_self
    exact .lexeme (x := .scalar (.number written)) ⟨hnumber.1, hnumber.2, rfl⟩ (fun _ => hends) hcs
  | .text s => exact .lexeme (x := .text s) (written_quote s) nofun hcs
  | .list [] =>
    have hclose := Writes.lexeme (x := .closeList) rfl nofun hcs
    have hall := Writes.lexeme (x := .openList) rfl nofun hclose
    exact hall
  | .list (item :: items) =>
    simp only [Datum.lexemes, List.forall_mem_cons, List.forall_mem_append] at h
    have hclose : Writes (.closeList :: xs) (newLine level ++ ']' :: cs) :=
      (Writes.lexeme (x := .closeList) rfl nofun hcs).newLine level
    have hmore := writes_printItems items (level + 1) h.2.2.1 (numberEnds_newLine _ _) hclose
    have hitem := writes_print item (level + 1) h.2.1
      ((numberEnds_newLine _ _).printItems _ _) hmore
    have hall := Writes.lexeme (x := .openList) rfl nofun (hitem.newLine (level + 1))
    simpa [Datum.lexemes, print] using hall
  | .record [] =>
    have hclose := Writes.lexeme (x := .closeRecord) rfl nofun hcs
    have hall := Writes.lexeme (x := .openRecord) rfl nofun hclose
    exact hall
  | .record (field :: fields) =>
    simp only [Datum.lexemes, List.forall_mem_cons, List.forall_mem_append] at h
    have hclose : Writes (.closeRecord :: xs) (newLine level ++ '}' :: cs) :=
      (Writes.lexeme (x := .closeRecord) rfl nofun hcs).newLine level
    have hmore := writes_printFields fields (level + 1) h.2.2.1 (numberEnds_newLine _ _) hclose
    have hfield := writes_printField field (level + 1) h.2.1
      ((numberEnds_newLine _ _).printFields _ _) hmore
    have hall := Writes.lexeme (x := .openRecord) rfl nofun (hfield.newLine (level + 1))
    simpa [Datum.lexemes, print] using hall

theorem writes_printItems (items : List Datum) (level : Nat)
    (h : ∀ x ∈ Datum.moreLexemes items, x.Printable) {xs : List Lexeme} {cs : List Char}
    (hends : NumberEnds cs) (hcs : Writes xs cs) :
    Writes (Datum.moreLexemes items ++ xs) (printItems level items ++ cs) := by
  match items with
  | [] => exact hcs
  | item :: items =>
    simp only [Datum.moreLexemes, List.forall_mem_cons, List.forall_mem_append] at h
    have hmore := writes_printItems items level h.2.2 hends hcs
    have hitem := writes_print item level h.2.1 (hends.printItems level items) hmore
    have hall := Writes.lexeme (x := .comma) rfl nofun (hitem.newLine level)
    simpa [Datum.moreLexemes, printItems] using hall

theorem writes_printField (field : Field) (level : Nat) (h : ∀ x ∈ field.lexemes, x.Printable)
    {xs : List Lexeme} {cs : List Char} (hends : NumberEnds cs) (hcs : Writes xs cs) :
    Writes (field.lexemes ++ xs) (printField level field ++ cs) := by
  match field with
  | .mk key value =>
    simp only [Field.lexemes, List.forall_mem_cons, List.forall_mem_append] at h
    have hvalue := writes_print value level h.2.2 hends hcs
    have hcolon := Writes.lexeme (x := .colon) rfl nofun (hvalue.blank (c := ' ') (by decide))
    have hkey := writes_print key level h.1 (by simp [NumberEnds, IsDigit]) hcolon
    simpa [Field.lexemes, printField] using hkey

theorem writes_printFields (fields : List Field) (level : Nat)
    (h : ∀ x ∈ Field.moreLexemes fields, x.Printable) {xs : List Lexeme} {cs : List Char}
    (hends : NumberEnds cs) (hcs : Writes xs cs) :
    Writes (Field.moreLexemes fields ++ xs) (printFields level fields ++ cs) := by
  match fields with
  | [] => exact hcs
  | field :: fields =>
    simp only [Field.moreLexemes, List.forall_mem_cons, List.forall_mem_append] at h
    have hmore := writes_printFields fields level h.2.2 hends hcs
    have hfield := writes_printField field level h.2.1 (hends.printFields level fields) hmore
    have hall := Writes.lexeme (x := .comma) rfl nofun (hfield.newLine level)
    simpa [Field.moreLexemes, printFields] using hall

end

/-- What is printed of a value is a text of that value. -/
theorem isText_toJson {v : Datum} (hkeyed : v.Keyed) (h : ∀ x ∈ v.lexemes, x.Printable) :
    IsText v v.toJson.toList := by
  have hall := writes_print v 0 h (by simp [NumberEnds]) Writes.nil
  rw [List.append_nil, List.append_nil] at hall
  rw [Datum.toJson, String.toList_ofList]
  exact ⟨hkeyed, hall⟩

end Json

end SyntaxHue
