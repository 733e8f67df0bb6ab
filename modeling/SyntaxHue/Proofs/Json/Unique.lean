import SyntaxHue.Proofs.Json.Print

/-!
# A text has one value

Reading takes a text for the value it was written from, but only within the limits of the reader.
Here there are none: whatever its depth and its numbers, no text is written from two values. In
particular printing tells all values apart.
-/

namespace SyntaxHue

namespace Json

open JsonText (IsInt IsNumber)

/-! ### Numbers -/

/-- What a reader takes off the front of a text is known, and so is what is left. -/
theorem read_cancel {α : Type} {read? : List Char → Option (α × List Char)}
    {xs ys cs ds : List Char} {a b : α} (hxs : read? (xs ++ cs) = some (a, cs))
    (hys : read? (ys ++ ds) = some (b, ds)) (h : xs ++ cs = ys ++ ds) :
    xs = ys ∧ cs = ds ∧ a = b := by
  rw [h, hys] at hxs
  obtain ⟨rfl, rfl⟩ := Prod.mk.inj (Option.some.inj hxs)
  exact ⟨List.append_cancel_right h, rfl, rfl⟩

theorem isNumber_of_isInt {cs : List Char} (h : IsInt cs) : IsNumber cs :=
  ⟨[], cs, [], [], List.mem_cons_self, h, .inl rfl, .inl rfl, by simp⟩

theorem sign_cancel {sign sign' xs ys cs ds : List Char} (hsign : sign ∈ [[], ['-']])
    (hsign' : sign' ∈ [[], ['-']]) (hxs : IsInt xs) (hys : IsInt ys)
    (h : sign ++ (xs ++ cs) = sign' ++ (ys ++ ds)) : sign = sign' ∧ xs ++ cs = ys ++ ds := by
  obtain ⟨d, more, hd, rfl⟩ := Lexeme.exists_digit hxs
  obtain ⟨d', more', hd', rfl⟩ := Lexeme.exists_digit hys
  have hminus : ¬ JsonText.IsDigit '-' := by simp [JsonText.IsDigit]
  simp only [List.mem_cons, List.not_mem_nil, or_false] at hsign hsign'
  rcases hsign with rfl | rfl <;> rcases hsign' with rfl | rfl
  · exact ⟨rfl, h⟩
  · exact absurd ((List.cons.inj h).1 ▸ hd) hminus
  · exact absurd ((List.cons.inj h).1 ▸ hd') hminus
  · exact ⟨rfl, (List.cons.inj h).2⟩

/-- A number goes as far as it can, so where it ends is known. -/
theorem number_cancel {xs ys cs ds : List Char} (hxs : IsNumber xs) (hys : IsNumber ys)
    (hcs : NumberEnds cs) (hds : NumberEnds ds) (h : xs ++ cs = ys ++ ds) : xs = ys ∧ cs = ds := by
  obtain ⟨sign, int, fraction, exponent, hsign, hint, hfraction, hexponent, rfl⟩ := hxs
  obtain ⟨sign', int', fraction', exponent', hsign', hint', hfraction', hexponent', rfl⟩ := hys
  simp only [List.append_assoc] at h
  obtain ⟨hends, hpoint⟩ := ends_exponent hexponent hcs
  obtain ⟨hends', hpoint'⟩ := ends_exponent hexponent' hds
  obtain ⟨rfl, hwhole⟩ := sign_cancel hsign hsign' hint hint' h
  obtain ⟨rfl, hrest, -⟩ := read_cancel (whole?_append hint (noDigit_fraction hfraction hends))
    (whole?_append hint' (noDigit_fraction hfraction' hends')) hwhole
  obtain ⟨_, hread, -⟩ := fraction?_append hfraction hends hpoint
  obtain ⟨_, hread', -⟩ := fraction?_append hfraction' hends' hpoint'
  obtain ⟨rfl, hrest, -⟩ := read_cancel hread hread' hrest
  obtain ⟨_, hread, -⟩ := exponent?_append hexponent hcs
  obtain ⟨_, hread', -⟩ := exponent?_append hexponent' hds
  obtain ⟨rfl, hrest, -⟩ := read_cancel hread hread' hrest
  exact ⟨rfl, hrest⟩

/-! ### Lexemes -/

namespace Lexeme

theorem Heavy.isNumber {x : Lexeme} (h : x.Heavy) : x.IsNumber := by
  match x with
  | .scalar (.natural _) | .scalar (.number _) => trivial

theorem IsNumber.exists_eq {x : Lexeme} (h : x.IsNumber) :
    (∃ n, x = .scalar (.natural n)) ∨ ∃ written, x = .scalar (.number written) := by
  match x with
  | .scalar (.natural n) => exact .inl ⟨n, rfl⟩
  | .scalar (.number written) => exact .inr ⟨written, rfl⟩

theorem Written.isNumber {x : Lexeme} {cs : List Char} (h : x.Written cs) (hx : x.IsNumber) :
    JsonText.IsNumber cs := by
  rcases hx.exists_eq with ⟨n, rfl⟩ | ⟨written, rfl⟩
  · exact isNumber_of_isInt h.1
  · exact h.1

theorem Written.eq_of_isNumber {x y : Lexeme} {cs : List Char} (hx : x.Written cs)
    (hy : y.Written cs) (hx' : x.IsNumber) (hy' : y.IsNumber) : x = y := by
  rcases hx'.exists_eq with ⟨n, rfl⟩ | ⟨written, rfl⟩ <;>
    rcases hy'.exists_eq with ⟨m, rfl⟩ | ⟨other, rfl⟩
  · rw [← hx.2, ← hy.2]
  · exact absurd hx.1 hy.2.1
  · exact absurd hy.1 hx.2.1
  · rw [String.toList_inj.1 (hx.2.2.symm.trans hy.2.2)]

/-- The lexeme that a text begins with is known, and where it ends. -/
theorem Written.cancel {x y : Lexeme} {written other cs ds : List Char} (hx : x.Written written)
    (hy : y.Written other) (hcs : x.IsNumber → NumberEnds cs) (hds : y.IsNumber → NumberEnds ds)
    (h : written ++ cs = other ++ ds) : x = y ∧ cs = ds := by
  rcases first?_append hx hcs with hread | ⟨hheavy, hread⟩ <;>
    rcases first?_append hy hds with hread' | ⟨hheavy', hread'⟩
  · obtain ⟨-, hrest, hxy⟩ := read_cancel hread hread' h
    exact ⟨hxy, hrest⟩
  · rw [h, hread'] at hread
    cases hread
  · rw [h, hread'] at hread
    cases hread
  · -- numbers that are too large are not read, but they are compared as they are written
    obtain ⟨rfl, hrest⟩ := number_cancel (hx.isNumber hheavy.isNumber)
      (hy.isNumber hheavy'.isNumber) (hcs hheavy.isNumber) (hds hheavy'.isNumber) h
    exact ⟨hx.eq_of_isNumber hy hheavy.isNumber hheavy'.isNumber, hrest⟩

end Lexeme

/-! ### Texts -/

/-- A text is written from one row of lexemes only. -/
theorem Writes.unique {xs ys : List Lexeme} {cs : List Char} (h : Writes xs cs)
    (h' : Writes ys cs) : xs = ys := by
  induction h generalizing ys with
  | nil =>
    generalize hcs : [] = cs at h'
    cases h' with
    | nil => rfl
    | blank => cases hcs
    | lexeme hy =>
      obtain ⟨c, more, rfl, -⟩ := hy.exists_cons
      cases hcs
  | @blank c xs cs hc h ih =>
    generalize hall : c :: cs = all at h'
    cases h' with
    | nil => cases hall
    | blank hd h' =>
      obtain ⟨-, rfl⟩ := List.cons.inj hall
      exact ih h'
    | lexeme hy =>
      obtain ⟨d, more, rfl, hd⟩ := hy.exists_cons
      obtain ⟨rfl, -⟩ := List.cons.inj hall
      rw [hc] at hd
      cases hd
  | @lexeme x xs written cs hx hends h ih =>
    generalize hall : written ++ cs = all at h'
    cases h' with
    | nil =>
      obtain ⟨c, more, rfl, -⟩ := hx.exists_cons
      cases hall
    | blank hd =>
      obtain ⟨c, more, rfl, hc⟩ := hx.exists_cons
      obtain ⟨rfl, -⟩ := List.cons.inj hall
      rw [hd] at hc
      cases hc
    | lexeme hy hends' h' =>
      obtain ⟨rfl, rfl⟩ := hx.cancel hy hends hends' hall
      rw [ih h']

/-! ### Values -/

/-- Values with the same lexemes are the same: a reader with room for both takes the lexemes for
    either. -/
theorem eq_of_lexemes {v w : Datum} (hv : v.Keyed) (hw : w.Keyed) (h : v.lexemes = w.lexemes) :
    v = w := by
  let limit := max v.depth w.depth
  have hrun : ∀ u : Datum, u.Keyed → u.depth ≤ limit →
      State.run limit ⟨[], .value⟩ u.lexemes = some ⟨[], .nothing u⟩ := by
    intro u hu hdepth
    have hvalue := State.run_value u hu [] (Nat.zero_le limit) []
    rw [List.append_nil, List.length_nil, Nat.zero_add, if_pos hdepth, State.place,
      State.run] at hvalue
    exact hvalue
  have hboth := hrun v hv (Nat.le_max_left _ _)
  rw [h, hrun w hw (Nat.le_max_right _ _), Option.some.injEq, State.mk.injEq,
    Expected.nothing.injEq] at hboth
  exact hboth.2.symm

/-- A text is the text of one value only. -/
theorem IsText.unique {v w : Datum} {cs : List Char} (h : IsText v cs) (h' : IsText w cs) :
    v = w :=
  eq_of_lexemes h.1 h'.1 (h.2.unique h'.2)

end Json

end SyntaxHue
