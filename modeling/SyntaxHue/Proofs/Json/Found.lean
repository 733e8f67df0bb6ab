import SyntaxHue.Proofs.Json.Quote

/-!
# What a search finds from between two lexemes

A scan of a JSON text looks for its pattern from places between two lexemes. From such a place the
patterns for keys and for strings find the next literal that they are meant for. Or else they find
a match that starts in a literal in front of that one, which is no harm if the literal is a token.
-/

namespace SyntaxHue

namespace Cursor

theorem Over.length_before {u : List Char} {c d : Cursor} (h : Over u c d) :
    d.before.length = c.before.length + u.length := by
  have hlen := congrArg List.length h.text_eq
  have hafter := congrArg List.length h.after_eq
  simp only [text, List.length_append, List.length_reverse] at hlen hafter
  omega

theorem length_before_le {c d : Cursor} (htext : c.text = d.text) (hle : c.offset ≤ d.offset) :
    c.before.length ≤ d.before.length := by
  obtain ⟨u, -, hbefore, -⟩ := exists_between htext hle
  have hlen := congrArg List.length hbefore
  simp only [List.length_append, List.length_reverse] at hlen
  omega

theorem exists_over {c d : Cursor} (htext : d.text = c.text) (hle : c.offset ≤ d.offset) :
    ∃ u, Over u c d := by
  obtain ⟨u, hafter, -, -⟩ := exists_between htext.symm hle
  exact ⟨u, htext, hafter⟩

theorem Over.eq_of_over {u v : List Char} {c d : Cursor} (h : Over u c d) (h' : Over v c d) :
    u = v :=
  List.append_cancel_right (h.after_eq.symm.trans h'.after_eq)

end Cursor

namespace JsonText

open Cursor (Over)

/-- A place from which a scan looks for a pattern, in front of the lexemes `ls`. Only a text that
    is a single string has a literal right behind such a place. -/
structure Between (here : Cursor) (ls : List Lexeme) : Prop where
  told : Told ls
  after_eq : here.after = chars ls
  fresh : ∀ x l₂, ls = x :: l₂ → x.body?.isSome → here.before = [] ∧ ∀ y ∈ l₂, y.body? = none

/-- What a search for the lexemes that `target` selects finds in front of the lexemes `ls`. The
    ones that `taken` selects are tokens. -/
inductive Finds (target taken : Lexeme → Bool) (here : Cursor) (ls : List Lexeme) :
    Except Fault (Option PatternMatch) → Prop where
  | none : (∀ x ∈ ls, target x = false) → Finds target taken here ls (.ok none)
  | hit {m : PatternMatch} {l₁ l₂ : List Lexeme} {x : Lexeme} : ls = l₁ ++ x :: l₂ →
      (∀ y ∈ l₁, target y = false) → target x = true → Over (chars l₁) here m.span.start →
      Over x.chars m.span.start m.span.stop → Finds target taken here ls (.ok (some m))
  /-- The match starts in a token in front of the first lexeme that is looked for. -/
  | pass {m : PatternMatch} {l₁ l₂ : List Lexeme} {x : Lexeme} {w w' : List Char} :
      ls = l₁ ++ x :: l₂ → (∀ y ∈ l₁, target y = false) → target x = false → taken x = true →
      x.chars = w ++ w' → w' ≠ [] → Over (chars l₁ ++ w) here m.span.start →
      Finds target taken here ls (.ok (some m))

theorem Between.start {ls : List Lexeme} (h : IsJson ls) :
    Between (Cursor.start (chars ls)) ls where
  told := h.told
  after_eq := rfl
  fresh := by
    rintro x l₂ rfl hx
    exact ⟨rfl, h.lone hx⟩

/-- Behind a literal a scan can go on. -/
theorem Between.next {here there : Cursor} {l₁ l₂ : List Lexeme} {x : Lexeme}
    (h : Between here (l₁ ++ x :: l₂)) (hx : x.body?.isSome) (hafter : there.after = chars l₂) :
    Between there l₂ := by
  have htold := h.told.right
  refine ⟨htold.tail, hafter, ?_⟩
  rintro y l₃ rfl hy
  obtain ⟨b, hb⟩ := Option.isSome_iff_exists.1 hx
  rw [htold.next_body? hb] at hy
  simp at hy

/-- A literal starts one character behind the place of its match, or at the start of the text. -/
theorem Literal.length_before {place start stop : Cursor} (h : Literal place start stop) :
    start.before.length = place.before.length + 1 ∨
      start.before = [] ∧ start.before.length = place.before.length := by
  rcases h.lead with ⟨hempty, rfl⟩ | ⟨c, -, hover⟩
  · exact .inr ⟨hempty, rfl⟩
  · exact .inl hover.length_before

theorem length_chars_literal {x : Lexeme} {b : List Char} (h : x.body? = some b) :
    x.chars.length = b.length + 2 := by
  rw [Lexeme.chars_of_body? h]
  simp

/-! ## Literals of the text -/

section

variable {here : Cursor} {ls l₁ l₂ : List Lexeme} {x : Lexeme} {b : List Char}

theorem Told.no_quote (h : Told ls) (hnone : ∀ y ∈ ls, y.body? = none) : '"' ∉ chars ls := by
  induction ls with
  | nil => simp
  | cons y ls ih =>
    obtain ⟨hy, hls⟩ := List.forall_mem_cons.1 hnone
    rw [chars_cons, List.mem_append]
    rintro (hmem | hmem)
    · exact ((h.sound.inert hy).2 _ hmem).ne_quote rfl
    · exact ih h.tail hls hmem

/-- Behind the characters of some lexemes the text goes on with the others. -/
theorem Between.exists_over (h : Between here (l₁ ++ l₂)) :
    ∃ d, Over (chars l₁) here d ∧ d.after = chars l₂ := by
  have hafter := h.after_eq
  rw [chars_append] at hafter
  exact Over.exists_of_after hafter

/-- The character in front of a literal is no backslash. -/
theorem Between.exists_lead (h : Between here (l₁ ++ x :: l₂)) (hx : x.body? = some b)
    {start : Cursor} (hstart : Over (chars l₁) here start) :
    ∃ place, place.text = here.text ∧ here.offset ≤ place.offset ∧
      (place.before = [] ∧ start = place ∨ ∃ c, c ≠ '\\' ∧ Over [c] place start) := by
  rcases List.eq_nil_or_concat l₁ with rfl | ⟨l, y, rfl⟩
  · obtain ⟨hempty, -⟩ := h.fresh x l₂ rfl (by rw [hx]; rfl)
    cases hstart.eq_of_nil
    exact ⟨here, rfl, Nat.le_refl _, .inl ⟨hempty, rfl⟩⟩
  · rw [List.concat_eq_append] at h hstart
    have htold : Told (y :: x :: l₂) := by
      have happend := h.told
      rw [List.append_assoc] at happend
      exact happend.right
    have hy : y.body? = none := by
      by_contra hbody
      obtain ⟨b', hb'⟩ := Option.ne_none_iff_exists'.1 hbody
      rw [htold.next_body? hb'] at hx
      simp at hx
    obtain ⟨hne, hinert⟩ := htold.sound.inert hy
    obtain ⟨w, c, hw⟩ := List.eq_nil_or_concat y.chars |>.resolve_left hne
    rw [List.concat_eq_append] at hw
    have hc : c ≠ '\\' := (hinert c (by simp [hw])).ne_backslash
    rw [chars_append, chars_cons, chars_nil, List.append_nil, hw, ← List.append_assoc] at hstart
    obtain ⟨place, hplace, hover⟩ := hstart.exists_split
    have hoffset := hplace.offset_eq
    exact ⟨place, hplace.text_eq, by omega, .inr ⟨c, hc, hover⟩⟩

/-- The patterns have a match at every literal of the text. -/
theorem Between.exists_literal (h : Between here (l₁ ++ x :: l₂)) (hx : x.body? = some b) :
    ∃ place start stop, place.text = here.text ∧ here.offset ≤ place.offset ∧
      Literal place start stop ∧ Over (chars l₁) here start ∧ stop.after = chars l₂ := by
  obtain ⟨start, hstart, hafter⟩ := h.exists_over
  obtain ⟨place, htext, hle, hlead⟩ := h.exists_lead hx hstart
  obtain ⟨stop, hstop, hrest⟩ := Over.exists_of_after hafter
  rw [Lexeme.chars_of_body? hx] at hstop
  exact ⟨place, start, stop, htext, hle, ⟨hlead, b, h.told.right.sound.isRun hx, hstop⟩, hstart,
    hrest⟩

/-- Where a match of the patterns can start: where a literal opens or where it closes. -/
theorem Between.literal_cases (h : Between here ls) {place start stop : Cursor}
    (htext : place.text = here.text) (hle : here.offset ≤ place.offset)
    (hliteral : Literal place start stop) :
    ∃ l₁ x l₂ b, ls = l₁ ++ x :: l₂ ∧ x.body? = some b ∧
      (Over (chars l₁) here start ∧ Over x.chars start stop ∧ stop.after = chars l₂ ∨
        Over (chars l₁ ++ '"' :: b) here start ∧ b.getLast? ≠ some '\\' ∧
          ∃ b', IsRun b' ∧ chars l₂ = b' ++ '"' :: stop.after) := by
  have hstart : here.offset ≤ start.offset := Nat.le_trans hle hliteral.le_start
  obtain ⟨u, hu⟩ := Cursor.exists_over (hliteral.start_text.trans htext) hstart
  obtain ⟨b', hb', hover⟩ := hliteral.body
  have hlast : u.getLast? ≠ some '\\' := by
    rcases hliteral.lead with ⟨hempty, rfl⟩ | ⟨c, hc, hlead⟩
    · have hlen := hu.length_before
      rw [hempty, List.length_nil] at hlen
      have hnil : u = [] := List.eq_nil_of_length_eq_zero (by omega)
      simp [hnil]
    · obtain ⟨u₁, hu₁⟩ := Cursor.exists_over htext hle
      rw [hu.eq_of_over (hu₁.append hlead)]
      simpa using hc
  have hls : chars ls = u ++ '"' :: (b' ++ '"' :: stop.after) := by
    rw [← h.after_eq, hu.after_eq, hover.after_eq]
    simp
  obtain ⟨l₁, x, l₂, b, rfl, hx, hcases⟩ := exists_of_quote h.told hls hlast
  refine ⟨l₁, x, l₂, b, rfl, hx, ?_⟩
  rw [chars_append, chars_cons, Lexeme.chars_of_body? hx] at hls
  rcases hcases with rfl | rfl
  · left
    have hrest : b ++ '"' :: chars l₂ = b' ++ '"' :: stop.after := by simpa using hls
    obtain ⟨rfl, hafter⟩ := (h.told.right.sound.isRun hx).unique hb' hrest
    rw [Lexeme.chars_of_body? hx]
    exact ⟨hu, hover, hafter.symm⟩
  · right
    have hrest : chars l₂ = b' ++ '"' :: stop.after := by simpa using hls
    refine ⟨hu, ?_, b', hb', hrest⟩
    intro hend
    exact hlast (getLast?_append_of_eq (getLast?_append_of_eq (u := ['"']) hend))

theorem Told.ne_nil (h : Told (x :: ls)) : x.chars ≠ [] := by
  cases hx : x.body? with
  | none => exact (h.sound.inert hx).1
  | some b => simp [Lexeme.chars_of_body? hx]

/-- Of two matches the one that is found first starts no later, except at the start of the text,
    where the first one may give a character away. -/
theorem start_le_of_place_le {place start stop place' start' stop' : Cursor}
    (h : Literal place start stop) (h' : Literal place' start' stop')
    (htext : place.text = place'.text) (hle : place.offset ≤ place'.offset) :
    start.before.length ≤ start'.before.length ∨
      start'.before = [] ∧ start.before.length ≤ 1 := by
  have hplace := Cursor.length_before_le htext hle
  rcases h.length_before with hstart | ⟨-, hstart⟩
  · rcases h'.length_before with hstart' | ⟨hempty, hstart'⟩
    · exact .inl (by omega)
    · rw [hempty, List.length_nil] at hstart'
      exact .inr ⟨hempty, by omega⟩
  · rcases h'.length_before with hstart' | ⟨hempty, hstart'⟩
    · exact .inl (by omega)
    · rw [hempty, List.length_nil] at hstart'
      exact .inr ⟨hempty, by omega⟩

variable {wants : List Char → Prop} {target taken : Lexeme → Bool}

/-- What is wanted behind a literal tells which literals are looked for. -/
structure Aims (wants : List Char → Prop) (target : Lexeme → Bool) : Prop where
  wants_iff : ∀ x l₂, Told (x :: l₂) → x.body?.isSome → (wants (chars l₂) ↔ target x = true)
  body? : ∀ x, target x = true → x.body?.isSome

/-- The first match starts no later than a literal that is looked for opens. -/
theorem Between.first_le (h : Between here (l₁ ++ x :: l₂)) (haims : Aims wants target)
    (hx : target x = true) {place start stop : Cursor}
    (hfirst : IsFirst wants here place start stop) :
    start.before.length ≤ here.before.length + (chars l₁).length ∨
      here.before = [] ∧ l₁ = [] ∧ start.before.length ≤ 1 := by
  have hbody := haims.body? x hx
  obtain ⟨b, hb⟩ := Option.isSome_iff_exists.1 hbody
  obtain ⟨place', start', stop', htext', hle', hliteral', hover, hafter⟩ := h.exists_literal hb
  have hwants : wants stop'.after := by
    rw [hafter]
    exact (haims.wants_iff x l₂ h.told.right hbody).2 hx
  have hlen := hover.length_before
  have hplace := hfirst.least place' start' stop' htext' hle' hliteral' hwants
  rcases start_le_of_place_le hfirst.literal hliteral' (hfirst.text_eq.trans htext'.symm) hplace
    with hle | ⟨hempty, hle⟩
  · exact .inl (by omega)
  · rw [hempty, List.length_nil] at hlen
    refine .inr ⟨List.eq_nil_of_length_eq_zero (by omega), ?_, hle⟩
    cases l₁ with
    | nil => rfl
    | cons y l₁ =>
      have hy : y.chars ≠ [] := h.told.ne_nil
      have hpos := List.length_pos_iff.2 hy
      rw [chars_cons, List.length_append] at hlen
      omega

/-- Nothing that is looked for comes before the first match. -/
theorem Between.not_target_before (h : Between here (l₁ ++ l₂)) (haims : Aims wants target)
    {place start stop : Cursor} (hfirst : IsFirst wants here place start stop)
    (hlen : here.before.length + (chars l₁).length ≤ start.before.length) :
    ∀ y ∈ l₁, target y = false := by
  intro y hy
  cases htarget : target y with
  | false => rfl
  | true =>
    obtain ⟨l, l', rfl⟩ := List.append_of_mem hy
    rw [List.append_assoc, List.cons_append] at h
    obtain ⟨b, hb⟩ := Option.isSome_iff_exists.1 (haims.body? y htarget)
    have hy' := length_chars_literal hb
    simp only [chars_append, chars_cons, List.length_append] at hlen
    rcases h.first_le haims htarget hfirst with hle | ⟨-, -, hle⟩ <;> omega

/-- Where the first match starts: where a literal that is looked for opens, or where another one
    closes. -/
inductive Meets (target : Lexeme → Bool) (here : Cursor) (ls : List Lexeme) (start stop : Cursor) :
    Prop where
  | opening {l₁ l₂ : List Lexeme} {x : Lexeme} : ls = l₁ ++ x :: l₂ →
      (∀ y ∈ l₁, target y = false) → target x = true → Over (chars l₁) here start →
      Over x.chars start stop → Meets target here ls start stop
  | closing {l₁ l₂ : List Lexeme} {x : Lexeme} {b b' : List Char} : ls = l₁ ++ x :: l₂ →
      (∀ y ∈ l₁, target y = false) → target x = false → x.body? = some b →
      b.getLast? ≠ some '\\' → Over (chars l₁ ++ '"' :: b) here start → IsRun b' →
      chars l₂ = b' ++ '"' :: stop.after → Meets target here ls start stop

theorem Between.meets (h : Between here ls) (haims : Aims wants target)
    {place start stop : Cursor} (hfirst : IsFirst wants here place start stop) :
    Meets target here ls start stop := by
  obtain ⟨l₁, x, l₂, b, rfl, hx, hcases⟩ := h.literal_cases hfirst.text_eq hfirst.le hfirst.literal
  rcases hcases with ⟨hstart, hstop, hafter⟩ | ⟨hstart, hend, b', hb', hrest⟩
  · have hlen := hstart.length_before
    have hwants := hfirst.wanted
    rw [hafter] at hwants
    refine .opening rfl (h.not_target_before haims hfirst (by omega)) ?_ hstart hstop
    exact (haims.wants_iff x l₂ h.told.right (by rw [hx]; rfl)).1 hwants
  · have hlen := hstart.length_before
    rw [List.length_append, List.length_cons] at hlen
    refine .closing rfl (h.not_target_before haims hfirst (by omega)) ?_ hx hend hstart hb' hrest
    cases htarget : target x with
    | false => rfl
    | true =>
      rcases h.first_le haims htarget hfirst with hle | ⟨hempty, rfl, -⟩
      · omega
      · obtain ⟨-, hnone⟩ := h.fresh x l₂ rfl (by rw [hx]; rfl)
        refine absurd ?_ (h.told.right.tail.no_quote hnone)
        simp [hrest]

/-- What the patterns for keys and for strings find. A match that starts where a literal closes is
    one that nobody looks for; it may only occur where the literal is a token. -/
theorem Between.finds (h : Between here ls) (haims : Aims wants target)
    (hclosing : ∀ l₁ x l₂ b b' rest, ls = l₁ ++ x :: l₂ → x.body? = some b → target x = false →
      b.getLast? ≠ some '\\' → IsRun b' → chars l₂ = b' ++ '"' :: rest → wants rest →
      taken x = true)
    {r : Except Fault (Option PatternMatch)} (hfirst : FindsFirst wants here r) :
    Finds target taken here ls r := by
  cases hfirst with
  | none hnone =>
    refine .none fun x hx => ?_
    cases htarget : target x with
    | false => rfl
    | true =>
      obtain ⟨l₁, l₂, rfl⟩ := List.append_of_mem hx
      have hbody := haims.body? x htarget
      obtain ⟨b, hb⟩ := Option.isSome_iff_exists.1 hbody
      obtain ⟨place, start, stop, htext, hle, hliteral, -, hafter⟩ := h.exists_literal hb
      refine absurd ?_ (hnone place start stop htext hle hliteral)
      rw [hafter]
      exact (haims.wants_iff x l₂ h.told.right hbody).2 htarget
  | @some m place start stop hfirst hspan =>
    cases h.meets haims hfirst with
    | opening hls hbefore htarget hstart hstop =>
      refine .hit hls hbefore htarget ?_ ?_
      · rwa [hspan]
      · rwa [hspan]
    | @closing l₁ l₂ x b b' hls hbefore htarget hx hend hstart hb' hrest =>
      have hchars : x.chars = ('"' :: b) ++ ['"'] := Lexeme.chars_of_body? hx
      refine .pass hls hbefore htarget ?_ hchars (List.cons_ne_nil _ _) (by rwa [hspan])
      exact hclosing l₁ x l₂ b b' stop.after hls hx htarget hend hb' hrest hfirst.wanted

end

/-! ## The patterns of the grammar -/

section

variable {here : Cursor} {ls : List Lexeme} {p : Pattern}

theorem aims_key : Aims ColonNext Lexeme.isKey where
  wants_iff := fun _ _ htold hx => htold.colonNext_iff hx
  body? := by
    intro x hx
    cases x <;> simp_all [Lexeme.isKey, Lexeme.body?]

theorem aims_string : Aims (fun cs => ¬ ColonNext cs) Lexeme.isString where
  wants_iff := by
    intro x l₂ htold hx
    rw [htold.colonNext_iff hx]
    cases x <;> simp_all [Lexeme.isKey, Lexeme.isString, Lexeme.body?]
  body? := by
    intro x hx
    cases x <;> simp_all [Lexeme.isString, Lexeme.body?]

theorem misleading_right {l₁ l₂ : List Lexeme} (h : misleading (l₁ ++ l₂) = false) :
    misleading l₂ = false := by
  induction l₁ with
  | nil => exact h
  | cons x l₁ ih =>
    cases x with
    | string b =>
      rw [List.cons_append, misleading, Bool.or_eq_false_iff] at h
      exact ih h.2
    | _ => exact ih h

/-- In a text that is not misleading the pattern for keys finds keys only. -/
theorem Between.finds_key (h : Between here ls) (hclear : misleading ls = false)
    (hmatcher : p.regex.matcher = .regular keyPart) (hlook : p.lookbehind = true)
    (hgroups : p.regex.groups = 1) :
    Finds Lexeme.isKey (fun _ => false) here ls (p.find here) := by
  refine h.finds aims_key ?_ (findsFirst_key hmatcher hlook hgroups here)
  rintro l₁ x l₂ b b' rest rfl hx hkey hend hb' hrest hcolon
  have hmeets := meetsColon_of_run h.told.right.tail hb' hrest hcolon
  have hclear := misleading_right hclear
  cases x with
  | string c =>
    cases hx
    rw [misleading, hmeets] at hclear
    simp_all
  | key c => simp [Lexeme.isKey] at hkey
  | blank c => simp [Lexeme.body?] at hx
  | mark c => simp [Lexeme.body?] at hx
  | word cs => simp [Lexeme.body?] at hx

/-- Where the keys are tokens, what the pattern for strings finds is a string or is put aside. -/
theorem Between.finds_string (h : Between here ls)
    (hmatcher : p.regex.matcher = .backtracking stringProgram) (hlook : p.lookbehind = true)
    (hgroups : p.regex.groups = 1) (hgives : ¬ p.regex.GivesUp here) :
    Finds Lexeme.isString Lexeme.isKey here ls (p.find here) := by
  refine h.finds aims_string ?_ (findsFirst_string hmatcher hlook hgroups hgives)
  intro l₁ x l₂ b b' rest _ hx hstring _ _ _ _
  cases x <;> simp_all [Lexeme.isKey, Lexeme.isString, Lexeme.body?]

/-- What the pattern for keys takes for a key where a string closes. -/
theorem Between.exists_closing {l₁ l₂ : List Lexeme} {b : List Char}
    (h : Between here (l₁ ++ .string b :: l₂)) (hend : b.getLast? ≠ some '\\')
    (hmeets : meetsColon l₂ = true) : ∃ place start stop, place.text = here.text ∧
      here.offset ≤ place.offset ∧ Literal place start stop ∧
      Over (chars l₁ ++ '"' :: b) here start ∧ ColonNext stop.after := by
  obtain ⟨b', rest, hb', hl₂, hcolon⟩ := exists_run_of_meetsColon h.told.right.tail hmeets
  obtain ⟨w, c, hw⟩ := List.eq_nil_or_concat ('"' :: b) |>.resolve_left (List.cons_ne_nil _ _)
  rw [List.concat_eq_append] at hw
  have hc : c ≠ '\\' := by
    rintro rfl
    have hlast : ('"' :: b).getLast? = some '\\' := by simp [hw]
    cases b with
    | nil => simp at hlast
    | cons d b => exact hend (by simpa using hlast)
  have hafter : here.after = (chars l₁ ++ w) ++ ([c] ++ (('"' :: b' ++ ['"']) ++ rest)) := by
    have hall := h.after_eq
    rw [chars_append, chars_cons, hl₂] at hall
    rw [hall, Lexeme.chars, hw]
    simp
  obtain ⟨place, hplace, hrest⟩ := Over.exists_of_after hafter
  obtain ⟨start, hstart, hrest⟩ := Over.exists_of_after hrest
  obtain ⟨stop, hstop, rfl⟩ := Over.exists_of_after hrest
  have hoffset := hplace.offset_eq
  refine ⟨place, start, stop, hplace.text_eq, by omega, ⟨.inr ⟨c, hc, hstart⟩, b', hb', hstop⟩,
    ?_, hcolon⟩
  rw [hw, ← List.append_assoc]
  exact hplace.append hstart

/-- What a search for keys finds in front of the lexemes `ls` of a misleading text. -/
inductive FindsMisled (here : Cursor) (ls : List Lexeme) :
    Except Fault (Option PatternMatch) → Prop where
  | key {m : PatternMatch} {l₁ l₂ : List Lexeme} {x : Lexeme} : ls = l₁ ++ x :: l₂ →
      (∀ y ∈ l₁, y.isKey = false) → x.isKey = true → Over (chars l₁) here m.span.start →
      Over x.chars m.span.start m.span.stop → misleading l₂ = true →
      FindsMisled here ls (.ok (some m))
  /-- The match starts where a string closes. -/
  | closing {m : PatternMatch} {place : Cursor} {l₁ l₂ : List Lexeme} {b : List Char} :
      ls = l₁ ++ .string b :: l₂ → Literal place m.span.start m.span.stop →
      Over (chars l₁ ++ '"' :: b) here m.span.start → FindsMisled here ls (.ok (some m))

theorem Between.findsMisled (h : Between here ls) (hmisleading : misleading ls = true)
    {r : Except Fault (Option PatternMatch)} (hfirst : FindsFirst ColonNext here r) :
    FindsMisled here ls r := by
  cases hfirst with
  | none hnone =>
    rw [← List.append_nil ls] at hmisleading
    rcases exists_of_misleading hmisleading with hnil | ⟨l, b, l', rfl, hend, hmeets⟩
    · simp [misleading] at hnil
    · rw [List.append_nil] at hmeets
      obtain ⟨place, start, stop, htext, hle, hliteral, -, hcolon⟩ := h.exists_closing hend hmeets
      exact absurd hcolon (hnone place start stop htext hle hliteral)
  | @some m place start stop hfirst hspan =>
    cases h.meets aims_key hfirst with
    | @opening l₁ l₂ x hls hbefore hkey hstart hstop =>
      subst hls
      refine .key rfl hbefore hkey (by rwa [hspan]) (by rwa [hspan]) ?_
      have hcons : misleading (x :: l₂) = misleading l₂ := by
        cases x <;> simp_all [Lexeme.isKey, misleading]
      rcases exists_of_misleading hmisleading with htail | ⟨l, b, l', rfl, hend, hmeets⟩
      · rwa [hcons] at htail
      · -- a string that misleads in front of `x` would come first
        rw [List.append_assoc, List.cons_append] at h
        obtain ⟨place', start', stop', htext', hle', hliteral', hstart', hcolon⟩ :=
          h.exists_closing hend hmeets
        have hlen := hstart.length_before
        have hlen' := hstart'.length_before
        have hplace := hfirst.least place' start' stop' htext' hle' hliteral' hcolon
        have htext := hfirst.text_eq.trans htext'.symm
        simp only [chars_append, chars_cons, Lexeme.chars, List.length_append, List.length_cons,
          List.length_nil] at hlen hlen'
        rcases start_le_of_place_le hfirst.literal hliteral' htext hplace with hle | ⟨hempty, -⟩
        · omega
        · rw [hempty, List.length_nil] at hlen'
          omega
    | @closing l₁ l₂ x b b' hls hbefore hkey hx hend hstart hb' hrest =>
      have hstring : x = .string b := by
        cases x <;> simp_all [Lexeme.isKey, Lexeme.body?]
      subst hstring
      have hliteral : Literal place m.span.start m.span.stop := by
        rw [hspan]
        exact hfirst.literal
      exact .closing hls hliteral (by rwa [hspan])

/-- What begins with a solidus is found in literals only. -/
theorem Between.finds_slash (h : Between here ls) (htame : p.tame = true)
    (hbegins : p.begins '/' = true) :
    Finds (fun _ => false) (fun x => x.body?.isSome) here ls (p.find here) := by
  obtain ⟨found, hfind, -⟩ := Pattern.exists_find htame here
  rw [hfind]
  cases found with
  | none => exact .none fun _ _ => rfl
  | some m =>
    have horder := Pattern.inOrder_of_find hfind
    have hhead := Pattern.head_of_find htame hbegins hfind
    obtain ⟨u, hu⟩ := Cursor.exists_over horder.start_text (Pattern.le_of_find htame hfind)
    obtain ⟨cs, hcs⟩ := List.head?_eq_some_iff.1 hhead
    have hls : chars ls = u ++ '/' :: (cs ++ m.span.stop.after) := by
      rw [← h.after_eq, hu.after_eq, horder.after_eq, hcs, List.cons_append]
    obtain ⟨l₁, x, l₂, w, w', rfl, hx, hchars, hw', rfl⟩ := exists_of_slash h.told hls
    exact .pass rfl (fun _ _ => rfl) rfl hx hchars hw' hu

end

end JsonText

end SyntaxHue
