import Mathlib.Data.Bool.AllAny
import SyntaxHue.Proofs.Json.Text

/-!
# Where literals are found in a JSON text

A quotation mark that no backslash comes right before opens or closes a literal of the text. From
an opening one the patterns find the literal itself. From a closing one they take what lies between
two literals for a body, up to where the next literal opens: such a match is taken for a key if
that literal begins with a colon, perhaps behind blanks, and the texts where this happens at a
string are called misleading.
-/

namespace SyntaxHue

namespace JsonText

open Cursor (Over)

/-! ## Characters -/

instance (c : Char) : Decidable (IsDigit c) :=
  inferInstanceAs (Decidable (_ ∧ _))

instance (c : Char) : Decidable (IsHexDigit c) :=
  inferInstanceAs (Decidable (_ ∨ _ ∨ _))

theorem IsHexDigit.plain {c : Char} (h : IsHexDigit c) :
    c ≠ '\\' ∧ c ≠ '"' ∧ c ≠ '\r' ∧ c ≠ '\n' := by
  have hnot : ∀ x ∈ ['\\', '"', '\r', '\n'], ¬ IsHexDigit x :=
    List.all_iff_forall_prop.1 (by decide)
  refine ⟨?_, ?_, ?_, ?_⟩
  all_goals
    rintro rfl
    exact hnot _ (by simp) h

/-- The patterns take every body for what it is. -/
theorem IsBody.isRun {b : List Char} (h : IsBody b) : IsRun b := by
  induction h with
  | nil => exact .nil
  | plain hc hquote hslash _ ih =>
    refine .plain hslash hquote ?_ ?_ ih
    · rintro rfl
      exact absurd hc (by decide)
    · rintro rfl
      exact absurd hc (by decide)
  | escape hc _ ih =>
    refine .escape ?_ ih
    rintro rfl
    exact absurd hc (by decide)
  | unicode ha hb hc hd _ ih =>
    have hplain : ∀ {c cs}, IsHexDigit c → IsRun cs → IsRun (c :: cs) := fun hx hrun =>
      .plain hx.plain.1 hx.plain.2.1 hx.plain.2.2.1 hx.plain.2.2.2 hrun
    exact .escape (by decide) (hplain ha (hplain hb (hplain hc (hplain hd ih))))

theorem getLast?_append_of_eq {u v : List Char} {c : Char} (h : v.getLast? = some c) :
    (u ++ v).getLast? = some c := by
  rw [List.getLast?_append, h]
  rfl

/-- In a body a backslash comes right before every quotation mark. -/
theorem IsRun.getLast?_of_quote {b u v : List Char} (h : IsRun b) (hb : b = u ++ '"' :: v) :
    u.getLast? = some '\\' := by
  induction h generalizing u with
  | nil => simp at hb
  | @escape c cs hc hcs ih =>
    match u with
    | [] => simp at hb
    | [x] =>
      simp only [List.cons_append, List.cons.injEq] at hb
      rw [← hb.1]
      rfl
    | x :: y :: u =>
      simp only [List.cons_append, List.cons.injEq] at hb
      exact getLast?_append_of_eq (u := [x, y]) (ih hb.2.2)
  | @plain c cs hslash hquote _ _ hcs ih =>
    cases u with
    | nil =>
      simp only [List.nil_append, List.cons.injEq] at hb
      exact absurd hb.1 hquote
    | cons x u =>
      simp only [List.cons_append, List.cons.injEq] at hb
      exact getLast?_append_of_eq (u := [x]) (ih hb.2)

/-- A character that does not belong to a literal. -/
structure Inert (c : Char) : Prop where
  ne_quote : c ≠ '"'
  ne_backslash : c ≠ '\\'
  ne_slash : c ≠ '/'

instance (c : Char) : Decidable (Inert c) :=
  decidable_of_iff (c ≠ '"' ∧ c ≠ '\\' ∧ c ≠ '/') ⟨fun h => ⟨h.1, h.2.1, h.2.2⟩,
    fun h => ⟨h.1, h.2, h.3⟩⟩

theorem IsDigit.inert {c : Char} (h : IsDigit c) : Inert c := by
  have hnot : ∀ x ∈ ['"', '\\', '/'], ¬ IsDigit x := List.all_iff_forall_prop.1 (by decide)
  refine ⟨?_, ?_, ?_⟩
  all_goals
    rintro rfl
    exact hnot _ (by simp) h

theorem IsNumber.inert {cs : List Char} (h : IsNumber cs) : cs ≠ [] ∧ ∀ c ∈ cs, Inert c := by
  obtain ⟨sign, int, fraction, exponent, hsign, hint, hfraction, hexponent, rfl⟩ := h
  have hsigns : ∀ c ∈ sign, Inert c := by
    simp only [List.mem_cons, List.not_mem_nil, or_false] at hsign
    rcases hsign with rfl | rfl
    · exact List.forall_mem_nil _
    · exact List.forall_mem_singleton.2 (by decide)
  have hints : int ≠ [] ∧ ∀ c ∈ int, Inert c := by
    rcases hint with rfl | ⟨d, ds, hd, -, hds, rfl⟩
    · exact ⟨List.cons_ne_nil _ _, List.forall_mem_singleton.2 (by decide)⟩
    · exact ⟨List.cons_ne_nil _ _, List.forall_mem_cons.2 ⟨hd.inert, fun c hc => (hds c hc).inert⟩⟩
  have hfractions : ∀ c ∈ fraction, Inert c := by
    rcases hfraction with rfl | ⟨ds, hds, rfl⟩
    · exact List.forall_mem_nil _
    · exact List.forall_mem_cons.2 ⟨by decide, fun c hc => (hds.2 c hc).inert⟩
  have hexponents : ∀ c ∈ exponent, Inert c := by
    rcases hexponent with rfl | ⟨e, plus, ds, he, hplus, hds, rfl⟩
    · exact List.forall_mem_nil _
    · have hes : ∀ x ∈ ['e', 'E'], Inert x := List.all_iff_forall_prop.1 (by decide)
      have hpluses : ∀ w ∈ [[], ['+'], ['-']], w.all fun c => Inert c :=
        List.all_iff_forall_prop.1 (by decide)
      have hplusChars := List.all_iff_forall_prop.1 (hpluses plus hplus)
      exact List.forall_mem_cons.2 ⟨hes e he,
        List.forall_mem_append.2 ⟨hplusChars, fun c hc => (hds.2 c hc).inert⟩⟩
  refine ⟨by simp [hints.1], ?_⟩
  simp only [List.forall_mem_append]
  exact ⟨hsigns, hints.2, hfractions, hexponents⟩

/-- A lexeme that is no literal has characters that do not belong to a literal. -/
theorem Lexeme.Sound.inert {x : Lexeme} (h : x.Sound) (hx : x.body? = none) :
    x.chars ≠ [] ∧ ∀ c ∈ x.chars, Inert c := by
  cases x with
  | blank c =>
    have hc : ∀ y ∈ [' ', '\t', '\n', '\r'], Inert y := List.all_iff_forall_prop.1 (by decide)
    exact ⟨List.cons_ne_nil _ _, List.forall_mem_singleton.2 (hc c h)⟩
  | mark c =>
    have hc : ∀ y ∈ ['[', ']', '{', '}', ',', ':'], Inert y :=
      List.all_iff_forall_prop.1 (by decide)
    exact ⟨List.cons_ne_nil _ _, List.forall_mem_singleton.2 (hc c h)⟩
  | word cs =>
    rcases h with h | h
    · have hnames : ∀ w ∈ ["true".toList, "false".toList, "null".toList],
          w ≠ [] ∧ w.all fun c => Inert c := List.all_iff_forall_prop.1 (by decide)
      obtain ⟨hne, hchars⟩ := hnames cs h
      exact ⟨hne, List.all_iff_forall_prop.1 hchars⟩
    · exact h.inert
  | key b => simp [body?] at hx
  | string b => simp [body?] at hx

/-! ## Quotation marks -/

namespace Told

variable {x : Lexeme} {ls ms : List Lexeme}

theorem tail (h : Told (x :: ls)) : Told ls :=
  h.2

theorem sound (h : Told (x :: ls)) : x.Sound :=
  h.1.1

theorem followed (h : Told (x :: ls)) : x.Followed ls :=
  h.1.2

theorem right (h : Told (ls ++ ms)) : Told ms := by
  induction ls with
  | nil => exact h
  | cons y ls ih => exact ih h.tail

/-- No literal is right behind another one. -/
theorem next_body? {y : Lexeme} {b : List Char} (h : Told (x :: y :: ls)) (hx : x.body? = some b) :
    y.body? = none := by
  have hfollowed := h.followed
  cases x with
  | blank c => simp [Lexeme.body?] at hx
  | mark c => simp [Lexeme.body?] at hx
  | word cs => simp [Lexeme.body?] at hx
  | key b => cases y <;> simp_all [Lexeme.Followed, BeforeColon, Lexeme.body?]
  | string b => cases y <;> simp_all [Lexeme.Followed, BeforeEnd, Lexeme.body?]

end Told

theorem Lexeme.chars_of_body? {x : Lexeme} {b : List Char} (h : x.body? = some b) :
    x.chars = '"' :: b ++ ['"'] := by
  cases x <;> simp_all [body?, chars]

theorem Lexeme.Sound.isRun {x : Lexeme} {b : List Char} (h : x.Sound) (hx : x.body? = some b) :
    IsRun b := by
  cases x <;> simp_all [body?, Sound]
  all_goals exact h.isRun

/-- A quotation mark that no backslash comes right before opens or closes a literal. -/
theorem exists_of_quote {ls : List Lexeme} {u v : List Char} (htold : Told ls)
    (h : chars ls = u ++ '"' :: v) (hu : u.getLast? ≠ some '\\') :
    ∃ l₁ x l₂ b, ls = l₁ ++ x :: l₂ ∧ x.body? = some b ∧
      (u = chars l₁ ∨ u = chars l₁ ++ '"' :: b) := by
  induction ls generalizing u with
  | nil => simp at h
  | cons x ls ih =>
    rw [chars_cons] at h
    have hbehind : ∀ w, u = x.chars ++ w → chars ls = w ++ '"' :: v → ∃ l₁ y l₂ b,
        x :: ls = l₁ ++ y :: l₂ ∧ y.body? = some b ∧
          (u = chars l₁ ∨ u = chars l₁ ++ '"' :: b) := by
      rintro w rfl hw
      have hlast : w.getLast? ≠ some '\\' := fun hlast => hu (getLast?_append_of_eq hlast)
      obtain ⟨l₁, y, l₂, b, rfl, hy, hcases⟩ := ih htold.tail hw hlast
      refine ⟨x :: l₁, y, l₂, b, rfl, hy, ?_⟩
      rcases hcases with rfl | rfl
      · exact .inl rfl
      · exact .inr (by simp)
    rcases List.append_eq_append_iff.1 h with ⟨w, hw, hv⟩ | ⟨w, hw, hv⟩
    · exact hbehind w hw hv
    · cases w with
      | nil => exact hbehind [] (by simpa using hw.symm) (by simpa using hv.symm)
      | cons c w =>
        -- the mark is among the characters of `x`
        simp only [List.cons_append, List.cons.injEq] at hv
        obtain ⟨rfl, -⟩ := hv
        cases hbody : x.body? with
        | none =>
          have hinert := (htold.sound.inert hbody).2 '"' (by simp [hw])
          exact absurd rfl hinert.ne_quote
        | some b =>
          rw [Lexeme.chars_of_body? hbody] at hw
          refine ⟨[], x, ls, b, rfl, hbody, ?_⟩
          cases u with
          | nil => exact .inl rfl
          | cons y u =>
            simp only [List.cons_append, List.cons.injEq] at hw
            obtain ⟨rfl, hw⟩ := hw
            rcases List.append_eq_append_iff.1 hw with ⟨m, hu', hm⟩ | ⟨m, hb, hm⟩
            · cases m with
              | nil => exact .inr (by simpa using hu')
              | cons z m => simp at hm
            · cases m with
              | nil => exact .inr (by simpa using hb.symm)
              | cons z m =>
                simp only [List.cons_append, List.cons.injEq] at hm
                obtain ⟨rfl, -⟩ := hm
                have hlast := (htold.sound.isRun hbody).getLast?_of_quote hb
                exact absurd (getLast?_append_of_eq (u := ['"']) hlast) hu

/-- A solidus is part of a literal. -/
theorem exists_of_slash {ls : List Lexeme} {u v : List Char} (htold : Told ls)
    (h : chars ls = u ++ '/' :: v) :
    ∃ l₁ x l₂ w w', ls = l₁ ++ x :: l₂ ∧ x.body?.isSome ∧ x.chars = w ++ w' ∧ w' ≠ [] ∧
      u = chars l₁ ++ w := by
  induction ls generalizing u with
  | nil => simp at h
  | cons x ls ih =>
    rw [chars_cons] at h
    have hbehind : ∀ w, u = x.chars ++ w → chars ls = w ++ '/' :: v → ∃ l₁ y l₂ w w',
        x :: ls = l₁ ++ y :: l₂ ∧ y.body?.isSome ∧ y.chars = w ++ w' ∧ w' ≠ [] ∧
          u = chars l₁ ++ w := by
      rintro m rfl hm
      obtain ⟨l₁, y, l₂, w, w', rfl, hy, hchars, hw', rfl⟩ := ih htold.tail hm
      exact ⟨x :: l₁, y, l₂, w, w', rfl, hy, hchars, hw', by simp⟩
    rcases List.append_eq_append_iff.1 h with ⟨w, hw, hv⟩ | ⟨w, hw, hv⟩
    · exact hbehind w hw hv
    · cases w with
      | nil => exact hbehind [] (by simpa using hw.symm) (by simpa using hv.symm)
      | cons c w =>
        simp only [List.cons_append, List.cons.injEq] at hv
        obtain ⟨rfl, -⟩ := hv
        cases hbody : x.body? with
        | none =>
          have hinert := (htold.sound.inert hbody).2 '/' (by simp [hw])
          exact absurd rfl hinert.ne_slash
        | some b =>
          exact ⟨[], x, ls, u, _, rfl, by rw [hbody]; rfl, hw, List.cons_ne_nil _ _, rfl⟩

/-! ## Colons -/

theorem not_colonNext_nil : ¬ ColonNext [] := by
  rintro ⟨w, rest, -, h⟩
  simp at h

theorem colonNext_cons {c : Char} {cs : List Char} :
    ColonNext (c :: cs) ↔ c = ':' ∨ isBlank c = true ∧ ColonNext cs := by
  constructor
  · rintro ⟨w, rest, hw, h⟩
    cases w with
    | nil =>
      simp only [List.nil_append, List.cons.injEq] at h
      exact .inl h.1
    | cons d w =>
      simp only [List.cons_append, List.cons.injEq] at h
      obtain ⟨rfl, h⟩ := h
      exact .inr ⟨hw _ List.mem_cons_self, w, rest, fun c hc => hw c (List.mem_cons_of_mem _ hc), h⟩
  · rintro (rfl | ⟨hc, w, rest, hw, rfl⟩)
    · exact ⟨[], cs, List.forall_mem_nil _, rfl⟩
    · exact ⟨c :: w, rest, List.forall_mem_cons.2 ⟨hc, hw⟩, rfl⟩

/-- Whether the characters begin with a colon, perhaps behind blanks. -/
def colonFirst : List Char → Bool
  | [] => false
  | c :: cs => c = ':' || isBlank c && colonFirst cs

/-- A quotation mark is neither a blank nor a colon. -/
theorem colonNext_append_quote {cs rest : List Char} :
    ColonNext (cs ++ '"' :: rest) ↔ colonFirst cs = true := by
  induction cs with
  | nil =>
    have hquote : isBlank '"' = false := by decide
    rw [List.nil_append, colonNext_cons]
    simp [hquote, colonFirst]
  | cons c cs ih =>
    rw [List.cons_append, colonNext_cons, ih, colonFirst]
    simp

theorem isBlank_of_sound {c : Char} (h : (Lexeme.blank c).Sound) : isBlank c = true := by
  have hblank : ∀ y ∈ [' ', '\t', '\n', '\r'], isBlank y = true :=
    List.all_iff_forall_prop.1 (by decide)
  exact hblank c h

theorem not_isBlank_of_sound {c : Char} (h : (Lexeme.mark c).Sound) : isBlank c = false := by
  have hmark : ∀ y ∈ ['[', ']', '{', '}', ',', ':'], isBlank y = false :=
    List.all_iff_forall_prop.1 (by decide)
  exact hmark c h

theorem BeforeColon.colonNext {ls : List Lexeme} (htold : Told ls) (h : BeforeColon ls) :
    ColonNext (chars ls) := by
  induction ls with
  | nil => exact h.elim
  | cons x ls ih =>
    cases x with
    | blank c => exact colonNext_cons.2 (.inr ⟨isBlank_of_sound htold.sound, ih htold.tail h⟩)
    | mark c => exact colonNext_cons.2 (.inl h)
    | word cs => exact h.elim
    | key b => exact h.elim
    | string b => exact h.elim

theorem BeforeEnd.not_colonNext {ls : List Lexeme} (htold : Told ls) (h : BeforeEnd ls) :
    ¬ ColonNext (chars ls) := by
  induction ls with
  | nil => exact not_colonNext_nil
  | cons x ls ih =>
    cases x with
    | blank c =>
      have hne : c ≠ ':' := by
        rintro rfl
        exact absurd (isBlank_of_sound htold.sound) (by decide)
      rw [chars_cons, Lexeme.chars, List.singleton_append, colonNext_cons]
      rintro (rfl | ⟨-, hnext⟩)
      · exact hne rfl
      · exact ih htold.tail h hnext
    | mark c =>
      rw [chars_cons, Lexeme.chars, List.singleton_append, colonNext_cons]
      rintro (rfl | ⟨hblank, -⟩)
      · exact h rfl
      · rw [not_isBlank_of_sound htold.sound] at hblank
        simp at hblank
    | word cs => exact h.elim
    | key b => exact h.elim
    | string b => exact h.elim

/-- Behind a literal there is a colon if it is a key, and none if it is a string. -/
theorem Told.colonNext_iff {x : Lexeme} {ls : List Lexeme} (h : Told (x :: ls))
    (hx : x.body?.isSome) : ColonNext (chars ls) ↔ x.isKey = true := by
  have hfollowed := h.followed
  cases x with
  | key b => exact iff_of_true (hfollowed.colonNext h.tail) rfl
  | string b => exact iff_of_false (hfollowed.not_colonNext h.tail) (by simp [Lexeme.isKey])
  | blank c => simp [Lexeme.body?] at hx
  | mark c => simp [Lexeme.body?] at hx
  | word cs => simp [Lexeme.body?] at hx

/-! ## Misleading texts -/

/-- Whether the next literal, with no line break in front of it, begins with a colon, perhaps
    behind blanks. -/
def meetsColon : List Lexeme → Bool
  | [] => false
  | x :: ls =>
    match x.body? with
    | some b => colonFirst b
    | none => x.chars.all (fun c => c ≠ '\r' && c ≠ '\n') && meetsColon ls

/-- Whether in some string that does not end in a backslash the closing quotation mark and the
    opening one of the next literal make what the pattern for keys looks for. -/
def misleading : List Lexeme → Bool
  | [] => false
  | .string b :: ls => (b.getLast? != some '\\' && meetsColon ls) || misleading ls
  | _ :: ls => misleading ls

/-- A body begins with characters that stand for themselves if no backslash is among them. -/
theorem IsRun.of_append {u v : List Char} (h : IsRun (u ++ v)) (hu : '\\' ∉ u) :
    IsRun v ∧ ∀ c ∈ u, c ≠ '\r' ∧ c ≠ '\n' := by
  induction u with
  | nil => exact ⟨h, List.forall_mem_nil _⟩
  | cons c u ih =>
    obtain ⟨hc, hu⟩ := not_or.1 (List.mem_cons.not.1 hu)
    rw [List.cons_append] at h
    generalize hw : u ++ v = w at h
    cases h with
    | escape => exact absurd rfl hc
    | plain _ _ hr hn hrest =>
      subst hw
      obtain ⟨hv, hplain⟩ := ih hrest hu
      exact ⟨hv, List.forall_mem_cons.2 ⟨⟨hr, hn⟩, hplain⟩⟩

/-- What lies in front of the next literal, taken for a body with a colon behind it. -/
theorem meetsColon_of_run {ls : List Lexeme} {b rest : List Char} (htold : Told ls) (hb : IsRun b)
    (h : chars ls = b ++ '"' :: rest) (hcolon : ColonNext rest) : meetsColon ls = true := by
  induction ls generalizing b with
  | nil => simp at h
  | cons x ls ih =>
    rw [chars_cons] at h
    rw [meetsColon]
    cases hbody : x.body? with
    | some b' =>
      rw [Lexeme.chars_of_body? hbody] at h
      cases hb with
      | nil =>
        simp only [List.nil_append, List.cons_append, List.append_assoc, List.cons.injEq,
          true_and] at h
        subst h
        exact colonNext_append_quote.1 hcolon
      | escape => simp at h
      | plain _ hquote =>
        simp only [List.cons_append, List.cons.injEq] at h
        exact absurd h.1.symm hquote
    | none =>
      have hinert := (htold.sound.inert hbody).2
      have hrest : ∀ w, b = x.chars ++ w → chars ls = w ++ '"' :: rest →
          (x.chars.all (fun c => c ≠ '\r' && c ≠ '\n') && meetsColon ls) = true := by
        rintro w rfl hw
        obtain ⟨hrun, hplain⟩ := hb.of_append fun hmem => (hinert _ hmem).ne_backslash rfl
        rw [Bool.and_eq_true, List.all_eq_true]
        refine ⟨?_, ih htold.tail hrun hw⟩
        intro c hc
        simpa using hplain c hc
      rcases List.append_eq_append_iff.1 h with ⟨w, hw, hls⟩ | ⟨w, hw, hls⟩
      · exact hrest w hw hls
      · cases w with
        | nil => exact hrest [] (by simpa using hw.symm) (by simpa using hls.symm)
        | cons c w =>
          simp only [List.cons_append, List.cons.injEq] at hls
          obtain ⟨rfl, -⟩ := hls
          exact absurd rfl (hinert '"' (by simp [hw])).ne_quote

theorem IsRun.append_plain {u v : List Char}
    (hu : ∀ c ∈ u, Inert c ∧ c ≠ '\r' ∧ c ≠ '\n') (hv : IsRun v) : IsRun (u ++ v) := by
  induction u with
  | nil => exact hv
  | cons c u ih =>
    obtain ⟨⟨hc, hr, hn⟩, hu⟩ := List.forall_mem_cons.1 hu
    exact .plain hc.ne_backslash hc.ne_quote hr hn (ih hu)

theorem exists_run_of_meetsColon {ls : List Lexeme} (htold : Told ls) (h : meetsColon ls = true) :
    ∃ b rest, IsRun b ∧ chars ls = b ++ '"' :: rest ∧ ColonNext rest := by
  induction ls with
  | nil => simp [meetsColon] at h
  | cons x ls ih =>
    rw [meetsColon] at h
    cases hbody : x.body? with
    | some b =>
      rw [hbody] at h
      refine ⟨[], b ++ '"' :: chars ls, .nil, ?_, colonNext_append_quote.2 h⟩
      simp [Lexeme.chars_of_body? hbody]
    | none =>
      rw [hbody] at h
      simp only [Bool.and_eq_true, List.all_eq_true] at h
      obtain ⟨b, rest, hb, hls, hcolon⟩ := ih htold.tail h.2
      refine ⟨x.chars ++ b, rest, hb.append_plain fun c hc => ?_, by simp [hls], hcolon⟩
      exact ⟨(htold.sound.inert hbody).2 c hc, by simpa using h.1 c hc⟩

/-- Where a text is misleading. -/
theorem exists_of_misleading {l₁ l₂ : List Lexeme} (h : misleading (l₁ ++ l₂) = true) :
    misleading l₂ = true ∨ ∃ l b l', l₁ = l ++ .string b :: l' ∧ b.getLast? ≠ some '\\' ∧
      meetsColon (l' ++ l₂) = true := by
  induction l₁ with
  | nil => exact .inl h
  | cons x l₁ ih =>
    have hlater : misleading (l₁ ++ l₂) = true → misleading l₂ = true ∨ ∃ l b l',
        x :: l₁ = l ++ .string b :: l' ∧ b.getLast? ≠ some '\\' ∧
          meetsColon (l' ++ l₂) = true := by
      intro hrest
      rcases ih hrest with hrest | ⟨l, b, l', rfl, hb, hmeets⟩
      · exact .inl hrest
      · exact .inr ⟨x :: l, b, l', rfl, hb, hmeets⟩
    cases x with
    | string b =>
      rw [List.cons_append, misleading, Bool.or_eq_true, Bool.and_eq_true] at h
      rcases h with ⟨hb, hmeets⟩ | h
      · exact .inr ⟨[], b, l₁, rfl, by simpa using hb, hmeets⟩
      · exact hlater h
    | _ => exact hlater h

end JsonText

end SyntaxHue
