import SyntaxHue.Json.Lexeme
import SyntaxHue.Proofs.Json.Text

/-!
# Reading lexemes

`Writes` says what texts a row of lexemes has: each lexeme may be written in several ways, and
there may be white space around it. Such a text is read as that row. Only a number can be in the
way: one that is too large for floating point is not read at all.
-/

namespace SyntaxHue

namespace Json

open JsonText (IsDigit IsDigits IsInt IsFraction IsExponent IsNumber)

/-! ### Strings -/

/-- What stands between quotes, with the text it stands for. -/
inductive Denotes : List Char → List Char → Prop where
  | nil : Denotes [] []
  | plain {c : Char} {body s : List Char} (hc : ' ' ≤ c) (hquote : c ≠ '"') (hslash : c ≠ '\\')
      (h : Denotes body s) : Denotes (c :: body) (c :: s)
  | escape {e c : Char} {body s : List Char} (he : unescape? e = some c) (h : Denotes body s) :
      Denotes ('\\' :: e :: body) (c :: s)
  | unicode {a b c d : Char} {n : Nat} {body s : List Char} (hn : unit? a b c d = some n)
      (hhigh : isHigh n = false) (hlow : isLow n = false) (h : Denotes body s) :
      Denotes ('\\' :: 'u' :: a :: b :: c :: d :: body) (Char.ofNat n :: s)
  | pair {a b c d a' b' c' d' : Char} {n m : Nat} {body s : List Char}
      (hn : unit? a b c d = some n) (hhigh : isHigh n = true)
      (hm : unit? a' b' c' d' = some m) (hlow : isLow m = true) (h : Denotes body s) :
      Denotes ('\\' :: 'u' :: a :: b :: c :: d :: '\\' :: 'u' :: a' :: b' :: c' :: d' :: body)
        (joined n m :: s)

/-- A string is read up to its closing quote. -/
theorem Denotes.string? {body s : List Char} (h : Denotes body s) (rest : List Char) :
    string? (body ++ '"' :: rest) = some (s, rest) := by
  induction h with
  | nil => rfl
  | @plain c body s hc hquote hslash _ ih =>
    have hlow : ¬ c.toNat < 0x20 := Nat.not_lt.2 hc
    rw [List.cons_append, Json.string?, ih]
    · simp [hslash, hlow]
    all_goals simp_all
  | @escape e c body s he _ ih =>
    have hu : e ≠ 'u' := by
      rintro rfl
      simp [unescape?] at he
    rw [List.cons_append, List.cons_append, Json.string?, he]
    · simp [ih]
    all_goals simp_all
  | unicode hn hhigh hlow _ ih =>
    simp [Json.string?, hn, hhigh, hlow, ih]
  | pair hn hhigh hm hlow _ ih =>
    simp [Json.string?, hn, hhigh, hm, hlow, ih]

/-! ### Numbers -/

theorem isDigit_iff {c : Char} : Digits.isDigit 10 c = true ↔ IsDigit c := by
  have hle : ∀ d : Char, d ≤ c ↔ d.toNat ≤ c.toNat := fun _ => Iff.rfl
  have hge : ∀ d : Char, c ≤ d ↔ c.toNat ≤ d.toNat := fun _ => Iff.rfl
  unfold Digits.isDigit Digits.value? IsDigit
  simp only [hle, hge, Char.reduceToNat]
  split
  · simp
    omega
  · split
    · simp
      omega
    · split <;> simp <;> omega

/-- No digit comes first. -/
def NoDigit (rest : List Char) : Prop :=
  ∀ c ∈ rest.head?, ¬ IsDigit c

/-- What may stand behind a number. -/
def NumberEnds (rest : List Char) : Prop :=
  ∀ c ∈ rest.head?, ¬ IsDigit c ∧ c ∉ ['.', 'e', 'E']

theorem NumberEnds.noDigit {rest : List Char} (h : NumberEnds rest) : NoDigit rest :=
  fun c hc => (h c hc).1

theorem span_append {ds rest : List Char} (hds : ∀ c ∈ ds, IsDigit c) (hrest : NoDigit rest) :
    Digits.span 10 (ds ++ rest) = (ds, rest) := by
  induction ds with
  | nil =>
    cases rest with
    | nil => rfl
    | cons c rest =>
      have hc : Digits.isDigit 10 c = false := by
        rw [Bool.eq_false_iff, ne_eq, isDigit_iff]
        exact hrest c rfl
      simp [Digits.span, hc]
  | cons d ds ih =>
    rw [List.forall_mem_cons] at hds
    have hd : Digits.isDigit 10 d = true := isDigit_iff.2 hds.1
    have hspan := ih hds.2
    simp only [Digits.span, Prod.mk.injEq] at hspan
    simp [Digits.span, hd, hspan]

theorem digits?_append {ds rest : List Char} (hds : IsDigits ds) (hrest : NoDigit rest) :
    digits? (ds ++ rest) = some (ds, rest) := by
  rw [digits?, span_append hds.2 hrest]
  match ds, hds.1 with
  | _ :: _, _ => rfl

theorem whole?_append {ds rest : List Char} (hds : IsInt ds) (hrest : NoDigit rest) :
    whole? (ds ++ rest) = some (ds, rest) := by
  obtain rfl | ⟨d, more, hd, hne, hmore, rfl⟩ := hds
  · rfl
  · have hall : IsDigits (d :: more) := ⟨List.cons_ne_nil _ _, List.forall_mem_cons.2 ⟨hd, hmore⟩⟩
    rw [← digits?_append hall hrest, List.cons_append, whole?]
    simpa using hne

theorem fraction?_append {cs rest : List Char} (hcs : IsFraction cs) (hrest : NoDigit rest)
    (hpoint : ∀ c ∈ rest.head?, c ≠ '.') :
    ∃ ds, fraction? (cs ++ rest) = some (ds, rest) ∧ (ds = [] ↔ cs = []) := by
  obtain rfl | ⟨ds, hds, rfl⟩ := hcs
  · refine ⟨[], ?_, by simp⟩
    rw [List.nil_append, fraction?]
    rintro more rfl
    exact hpoint '.' rfl rfl
  · exact ⟨ds, digits?_append hds hrest, by simp [hds.1]⟩

theorem signedDigits?_append {sign ds rest : List Char} (hsign : sign ∈ [[], ['+'], ['-']])
    (hds : IsDigits ds) (hrest : NoDigit rest) :
    ∃ n, signedDigits? (sign ++ (ds ++ rest)) = some (n, rest) := by
  have hdigits := digits?_append hds hrest
  simp only [List.mem_cons, List.not_mem_nil, or_false] at hsign
  rcases hsign with rfl | rfl | rfl
  · match ds, hds, hdigits with
    | d :: ds, hds, hdigits =>
      have hd : IsDigit d := hds.2 d List.mem_cons_self
      refine ⟨(Digits.toNat 10 (d :: ds) : Int), ?_⟩
      rw [List.nil_append, List.cons_append, signedDigits?, ← List.cons_append, hdigits]
      · rfl
      · intro more hplus
        rw [(List.cons.inj hplus).1] at hd
        exact absurd hd (by simp [IsDigit])
      · intro more hminus
        rw [(List.cons.inj hminus).1] at hd
        exact absurd hd (by simp [IsDigit])
  · simp [signedDigits?, hdigits]
  · simp [signedDigits?, hdigits]

theorem exponent?_append {cs rest : List Char} (hcs : IsExponent cs) (hrest : NumberEnds rest) :
    ∃ n?, exponent? (cs ++ rest) = some (n?, rest) ∧ (n? = none ↔ cs = []) := by
  obtain rfl | ⟨e, sign, ds, he, hsign, hds, rfl⟩ := hcs
  · refine ⟨none, ?_, by simp⟩
    rw [List.nil_append, exponent?]
    · rintro more rfl
      exact (hrest 'e' rfl).2 (by simp)
    · rintro more rfl
      exact (hrest 'E' rfl).2 (by simp)
  · obtain ⟨n, hn⟩ := signedDigits?_append hsign hds hrest.noDigit
    refine ⟨some n, ?_, by simp⟩
    simp only [List.mem_cons, List.not_mem_nil, or_false] at he
    rcases he with rfl | rfl <;> simp [exponent?, hn]

/-- Behind a number, or at its exponent, the digits before that are over. -/
theorem ends_exponent {cs rest : List Char} (hcs : IsExponent cs) (hrest : NumberEnds rest) :
    NoDigit (cs ++ rest) ∧ ∀ c ∈ (cs ++ rest).head?, c ≠ '.' := by
  obtain rfl | ⟨e, sign, ds, he, -, -, rfl⟩ := hcs
  · refine ⟨hrest.noDigit, ?_⟩
    rintro _ hc rfl
    exact (hrest '.' hc).2 (by simp)
  · simp only [List.mem_cons, List.not_mem_nil, or_false] at he
    rcases he with rfl | rfl <;> simp [NoDigit, IsDigit]

theorem noDigit_fraction {cs rest : List Char} (hcs : IsFraction cs) (hrest : NoDigit rest) :
    NoDigit (cs ++ rest) := by
  obtain rfl | ⟨ds, -, rfl⟩ := hcs
  · exact hrest
  · simp [NoDigit, IsDigit]

/-- A number is read to its end, unless it is too large. It is natural if it is nothing but
    digits, and is kept as it is written otherwise. -/
theorem number?_append (sign : List Char) {int fraction exponent rest : List Char}
    (hint : IsInt int) (hfraction : IsFraction fraction) (hexponent : IsExponent exponent)
    (hrest : NumberEnds rest) :
    ∃ weight : Decimal, (fraction = [] → exponent = [] → weight = .ofDigits int [] 0) ∧
      number? sign (int ++ (fraction ++ exponent) ++ rest) =
        if weight.overflows then none
        else if sign = [] ∧ fraction = [] ∧ exponent = [] then
          some (.natural (Digits.toNat 10 int), rest)
        else some (.number (String.ofList (sign ++ (int ++ (fraction ++ exponent)))), rest) := by
  obtain ⟨hends, hpoint⟩ := ends_exponent hexponent hrest
  have hwhole : whole? (int ++ (fraction ++ exponent) ++ rest) =
      some (int, fraction ++ (exponent ++ rest)) := by
    simpa using whole?_append hint (noDigit_fraction hfraction hends)
  obtain ⟨ds, hds, hnone⟩ := fraction?_append hfraction hends hpoint
  obtain ⟨n?, hn, hnone'⟩ := exponent?_append hexponent hrest
  refine ⟨.ofDigits int ds (n?.getD 0), ?_, ?_⟩
  · intro hf he
    rw [hnone.2 hf, hnone'.2 he]
    rfl
  · have htake : ∀ written : List Char,
        (written ++ rest).take ((written ++ rest).length - rest.length) = written := by
      intro written
      rw [List.length_append, Nat.add_sub_cancel, List.take_left]
    have hplain : (sign.isEmpty && ds.isEmpty && n?.isNone) = true ↔
        sign = [] ∧ fraction = [] ∧ exponent = [] := by
      simp [hnone, hnone', and_assoc]
    simp only [number?, hwhole, Option.bind_eq_bind, Option.bind_some, hds, hn, hplain, htake]

/-! ### Lexemes -/

namespace Lexeme

/-- How a lexeme may be written. -/
def Written : Lexeme → List Char → Prop
  | .openList, cs => cs = ['[']
  | .closeList, cs => cs = [']']
  | .openRecord, cs => cs = ['{']
  | .closeRecord, cs => cs = ['}']
  | .comma, cs => cs = [',']
  | .colon, cs => cs = [':']
  | .text s, cs => ∃ body, Denotes body s.toList ∧ cs = '"' :: (body ++ ['"'])
  | .scalar .null, cs => cs = "null".toList
  | .scalar (.bool b), cs => cs = if b then "true".toList else "false".toList
  | .scalar (.natural n), cs => IsInt cs ∧ Digits.toNat 10 cs = n
  | .scalar (.number written), cs => IsNumber cs ∧ ¬ IsInt cs ∧ cs = written.toList
  | .scalar _, _ => False

def IsNumber : Lexeme → Prop
  | .scalar (.natural _) | .scalar (.number _) => True
  | _ => False

/-- A number that is too large for floating point, or may be. -/
def Heavy : Lexeme → Prop
  | .scalar (.natural n) => (Decimal.mk n 0).overflows = true
  | .scalar (.number _) => True
  | _ => False

theorem first?_digit {d : Char} (hd : IsDigit d) (cs : List Char) :
    first? (d :: cs) =
      (number? [] (d :: cs)).map fun (value, rest) => (scalar value, rest) := by
  rw [first?]
  all_goals
    intro more hcs
    rw [(List.cons.inj hcs).1] at hd
    simp [IsDigit] at hd

theorem exists_digit {cs : List Char} (h : IsInt cs) : ∃ d ds, IsDigit d ∧ cs = d :: ds := by
  obtain rfl | ⟨d, ds, hd, -, -, rfl⟩ := h
  · exact ⟨'0', [], by simp [IsDigit], rfl⟩
  · exact ⟨d, ds, hd, rfl⟩

theorem first?_natural {cs rest : List Char} (h : IsInt cs) (hends : NumberEnds rest) :
    first? (cs ++ rest) =
      if (Decimal.mk (Digits.toNat 10 cs) 0).overflows then none
      else some (.scalar (.natural (Digits.toNat 10 cs)), rest) := by
  obtain ⟨weight, hweight, hnumber⟩ := number?_append [] h (.inl rfl) (.inl rfl) hends
  rw [hweight rfl rfl, Decimal.ofDigits] at hnumber
  simp only [List.append_nil, List.length_nil, Nat.cast_zero, sub_zero] at hnumber
  obtain ⟨d, ds, hd, rfl⟩ := exists_digit h
  rw [List.cons_append] at hnumber ⊢
  rw [first?_digit hd, hnumber]
  split <;> rfl

theorem first?_written {cs rest : List Char} (h : JsonText.IsNumber cs) (hint : ¬ IsInt cs)
    (hends : NumberEnds rest) :
    first? (cs ++ rest) = some (.scalar (.number (String.ofList cs)), rest) ∨
      first? (cs ++ rest) = none := by
  obtain ⟨sign, int, fraction, exponent, hsign, hwhole, hfraction, hexponent, rfl⟩ := h
  obtain ⟨weight, -, hnumber⟩ := number?_append sign hwhole hfraction hexponent hends
  have hmore : ¬ (sign = [] ∧ fraction = [] ∧ exponent = []) := by
    rintro ⟨rfl, rfl, rfl⟩
    exact hint (by simpa using hwhole)
  rw [if_neg hmore] at hnumber
  have hfirst : first? (sign ++ (int ++ (fraction ++ exponent)) ++ rest) =
      (number? sign (int ++ (fraction ++ exponent) ++ rest)).map
        fun (value, rest) => (scalar value, rest) := by
    simp only [List.mem_cons, List.not_mem_nil, or_false] at hsign
    rcases hsign with rfl | rfl
    · obtain ⟨d, ds, hd, rfl⟩ := exists_digit hwhole
      exact first?_digit hd _
    · rfl
  rw [hfirst, hnumber]
  split
  · exact .inr rfl
  · exact .inl rfl

/-- A lexeme is read in front of what may follow it, unless it is too large a number. -/
theorem first?_append {x : Lexeme} {cs rest : List Char} (h : x.Written cs)
    (hends : x.IsNumber → NumberEnds rest) :
    first? (cs ++ rest) = some (x, rest) ∨ x.Heavy ∧ first? (cs ++ rest) = none := by
  match x with
  | .openList | .closeList | .openRecord | .closeRecord | .comma | .colon | .scalar .null =>
    obtain rfl : cs = _ := h
    exact .inl rfl
  | .scalar (.bool b) =>
    obtain rfl : cs = _ := h
    cases b <;> exact .inl rfl
  | .text s =>
    obtain ⟨body, hbody, rfl⟩ := h
    left
    simp [first?, hbody.string? rest]
  | .scalar (.natural n) =>
    obtain ⟨hint, rfl⟩ := h
    rw [first?_natural hint (hends trivial)]
    split
    · next hheavy => exact .inr ⟨hheavy, rfl⟩
    · exact .inl rfl
  | .scalar (.number written) =>
    obtain ⟨hnumber, hint, rfl⟩ := h
    rcases first?_written hnumber hint (hends trivial) with hread | hnone
    · left
      rw [hread, String.ofList_toList]
    · exact .inr ⟨trivial, hnone⟩

end Lexeme

/-! ### Texts -/

/-- A text of a row of lexemes. There may be white space between them, and a number ends where no
    more of it follows. -/
inductive Writes : List Lexeme → List Char → Prop where
  | nil : Writes [] []
  | blank {c : Char} {xs : List Lexeme} {cs : List Char} (hc : isSpace c = true)
      (h : Writes xs cs) : Writes xs (c :: cs)
  | lexeme {x : Lexeme} {xs : List Lexeme} {written cs : List Char} (hx : x.Written written)
      (hends : x.IsNumber → NumberEnds cs) (h : Writes xs cs) : Writes (x :: xs) (written ++ cs)

theorem Lexeme.Written.exists_cons {x : Lexeme} {cs : List Char} (h : x.Written cs) :
    ∃ c more, cs = c :: more ∧ isSpace c = false := by
  have hdigit : ∀ {d : Char}, IsDigit d → isSpace d = false := by
    intro d hd
    simp only [isSpace, Bool.or_eq_false_iff, decide_eq_false_iff_not]
    refine ⟨⟨⟨?_, ?_⟩, ?_⟩, ?_⟩ <;> (rintro rfl; simp [IsDigit] at hd)
  match x with
  | .openList | .closeList | .openRecord | .closeRecord | .comma | .colon | .scalar .null =>
    obtain rfl : cs = _ := h
    exact ⟨_, _, rfl, by decide⟩
  | .scalar (.bool b) =>
    obtain rfl : cs = _ := h
    cases b <;> exact ⟨_, _, rfl, by decide⟩
  | .text s =>
    obtain ⟨body, -, rfl⟩ := h
    exact ⟨'"', _, rfl, by decide⟩
  | .scalar (.natural n) =>
    obtain ⟨d, ds, hd, rfl⟩ := exists_digit h.1
    exact ⟨d, ds, rfl, hdigit hd⟩
  | .scalar (.number written) =>
    obtain ⟨sign, int, fraction, exponent, hsign, hint, -, -, rfl⟩ := h.1
    obtain ⟨d, ds, hd, rfl⟩ := exists_digit hint
    simp only [List.mem_cons, List.not_mem_nil, or_false] at hsign
    rcases hsign with rfl | rfl
    · exact ⟨d, _, rfl, hdigit hd⟩
    · exact ⟨'-', _, rfl, by decide⟩

/-- A text is read as the row it is written from, unless a number in it is too large. -/
theorem Writes.scanWithin {xs : List Lexeme} {cs : List Char} (h : Writes xs cs) {fuel : Nat}
    (hfuel : cs.length ≤ fuel) :
    Lexeme.scanWithin fuel cs = some xs ∨
      (∃ x ∈ xs, x.Heavy) ∧ Lexeme.scanWithin fuel cs = none := by
  induction h generalizing fuel with
  | nil =>
    left
    cases fuel <;> rfl
  | @blank c xs cs hc h ih =>
    obtain ⟨fuel, rfl⟩ := Nat.exists_eq_add_one_of_ne_zero (Nat.ne_zero_of_lt hfuel)
    -- white space costs no fuel: it is dropped before a lexeme is read
    have hskip : Lexeme.scanWithin (fuel + 1) (c :: cs) = Lexeme.scanWithin (fuel + 1) cs := by
      simp [Lexeme.scanWithin, hc]
    rw [hskip]
    exact ih (by simp at hfuel; omega)
  | @lexeme x xs written cs hx hends h ih =>
    obtain ⟨c, more, hcons, hc⟩ := hx.exists_cons
    have hfirst := Lexeme.first?_append hx hends
    rw [hcons, List.cons_append] at hfirst hfuel ⊢
    rw [List.length_cons, List.length_append] at hfuel
    obtain ⟨fuel, rfl⟩ := Nat.exists_eq_add_one_of_ne_zero (Nat.ne_zero_of_lt hfuel)
    have hstep : Lexeme.scanWithin (fuel + 1) (c :: (more ++ cs)) =
        (Lexeme.first? (c :: (more ++ cs))).bind fun found =>
          (Lexeme.scanWithin fuel found.2).map (found.1 :: ·) := by
      rw [Lexeme.scanWithin, List.dropWhile_cons_of_neg (by simp [hc])]
      simp only [Option.map_eq_bind]
      rfl
    have hrest : cs.length ≤ fuel := by omega
    rw [hstep]
    rcases hfirst with hread | ⟨hheavy, hnone⟩
    · rw [hread, Option.bind_some]
      rcases ih hrest with hscan | ⟨⟨y, hy, hheavy⟩, hnone⟩
      · exact .inl (by rw [hscan]; rfl)
      · exact .inr ⟨⟨y, List.mem_cons_of_mem x hy, hheavy⟩, by rw [hnone]; rfl⟩
    · exact .inr ⟨⟨x, List.mem_cons_self, hheavy⟩, by rw [hnone]; rfl⟩

/-- A text that is written from a row is read as that row, unless a number in it is too large. -/
theorem Writes.scan {xs : List Lexeme} {cs : List Char} (h : Writes xs cs) :
    Lexeme.scan cs = some xs ∨ (∃ x ∈ xs, x.Heavy) ∧ Lexeme.scan cs = none :=
  h.scanWithin le_rfl

end Json

end SyntaxHue
