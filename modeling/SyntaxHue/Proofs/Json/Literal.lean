import SyntaxHue.Proofs.Builtin
import SyntaxHue.Proofs.Regex.Exact
import SyntaxHue.Proofs.Regex.Passes

/-!
# What the patterns for keys and strings find

The patterns of the JSON grammar for keys and for strings agree up to their last part. Each looks
for a literal: a quotation mark that no backslash comes right before, a body that takes every
backslash together with the character behind it, and the next quotation mark. They differ in
whether a colon has to follow the literal or must not. Both find the leftmost such place; that the
place is where a literal of the text begins is not said here, and does not always hold.
-/

namespace SyntaxHue

open Cursor (Over)
open Slots (frontMarks marks)

namespace JsonText

/-! ## The patterns -/

/-- The class of the characters that may come before a literal. -/
def leadSet : CharClass := .compl (.union .none (.single '\\'))

/-- The class of the characters that stand for themselves in a literal. -/
def plainSet : CharClass :=
  .compl (.union (.union (.union (.union .none (.single '\\')) (.single '"')) (.single '\r'))
    (.single '\n'))

/-- A blank stretch, and a colon behind it. -/
def colonPart (label : Nat) : Regular :=
  .seq (.star label true (.one .blank)) (.one (.single ':'))

/-- The program of the pattern for keys. -/
def keyProgram : Regular :=
  .seq
    (.group 0
      (.seq (.group 1 (.alt 0 (.assertion .textStart) (.one leadSet)))
        (.seq (.one (.single '"'))
          (.seq
            (.star 1 true
              (.alt 2 (.seq (.one (.single '\\')) (.one .notLineFeed)) (.one plainSet)))
            (.one (.single '"'))))))
    (colonPart 3)

def keyPart : Part := ⟨keyProgram, 4, 25, [0, 1]⟩

/-- What the pattern for strings refuses to have behind a literal. -/
def colonAhead : Part := ⟨colonPart 0, 1, 5, []⟩

/-- The program of the pattern for strings. -/
def stringProgram : Program :=
  .group 0
    (.seq (.group 1 (.alt (.assertion .textStart) (.one leadSet)))
      (.seq (.one (.single '"'))
        (.seq
          (.star true (.alt (.seq (.one (.single '\\')) (.one .notLineFeed)) (.one plainSet)))
          (.seq (.one (.single '"')) (.refuse (.part colonAhead))))))

/-! ## Literals -/

/-- What the patterns take for the body of a literal. -/
inductive IsRun : List Char → Prop where
  | nil : IsRun []
  | escape {c : Char} {cs : List Char} : c ≠ '\n' → IsRun cs → IsRun ('\\' :: c :: cs)
  | plain {c : Char} {cs : List Char} : c ≠ '\\' → c ≠ '"' → c ≠ '\r' → c ≠ '\n' → IsRun cs →
      IsRun (c :: cs)

/-- A body ends at the first quotation mark that is not taken together with a backslash. -/
theorem IsRun.unique {u v p q : List Char} (hu : IsRun u) (hv : IsRun v)
    (h : u ++ '"' :: p = v ++ '"' :: q) : u = v ∧ p = q := by
  induction hu generalizing v with
  | nil =>
    cases hv with
    | nil =>
      simp only [List.nil_append, List.cons.injEq, true_and] at h
      exact ⟨rfl, h⟩
    | escape => simp at h
    | plain _ hquote =>
      simp only [List.nil_append, List.cons_append, List.cons.injEq] at h
      exact absurd h.1.symm hquote
  | escape _ _ ih =>
    cases hv with
    | nil => simp at h
    | escape _ hv =>
      simp only [List.cons_append, List.cons.injEq, true_and] at h
      obtain ⟨rfl, h⟩ := h
      obtain ⟨rfl, rfl⟩ := ih hv h
      exact ⟨rfl, rfl⟩
    | plain hslash =>
      simp only [List.cons_append, List.cons.injEq] at h
      exact absurd h.1.symm hslash
  | plain hslash hquote _ _ _ ih =>
    cases hv with
    | nil =>
      simp only [List.nil_append, List.cons_append, List.cons.injEq] at h
      exact absurd h.1 hquote
    | escape =>
      simp only [List.cons_append, List.cons.injEq] at h
      exact absurd h.1 hslash
    | plain _ _ _ _ hv =>
      simp only [List.cons_append, List.cons.injEq] at h
      obtain ⟨rfl, h⟩ := h
      obtain ⟨rfl, rfl⟩ := ih hv h
      exact ⟨rfl, rfl⟩

/-- A colon follows, perhaps behind blanks. -/
def ColonNext (cs : List Char) : Prop :=
  ∃ w rest, (∀ c ∈ w, isBlank c = true) ∧ cs = w ++ ':' :: rest

/-- A literal between `start` and `stop`, with what the patterns look at in front of it. -/
structure Literal (place start stop : Cursor) : Prop where
  lead : place.before = [] ∧ start = place ∨ ∃ c, c ≠ '\\' ∧ Over [c] place start
  body : ∃ b, IsRun b ∧ Over ('"' :: b ++ ['"']) start stop

namespace Literal

variable {place start stop : Cursor}

theorem exists_over (h : Literal place start stop) : ∃ u, Over u place start := by
  rcases h.lead with ⟨-, rfl⟩ | ⟨c, -, hc⟩
  · exact ⟨[], .nil _⟩
  · exact ⟨[c], hc⟩

theorem start_text (h : Literal place start stop) : start.text = place.text := by
  obtain ⟨u, hover⟩ := h.exists_over
  exact hover.text_eq

theorem text_eq (h : Literal place start stop) : stop.text = place.text := by
  obtain ⟨b, -, hover⟩ := h.body
  exact hover.text_eq.trans h.start_text

theorem le_start (h : Literal place start stop) : place.offset ≤ start.offset := by
  obtain ⟨u, hover⟩ := h.exists_over
  have := hover.offset_eq
  omega

theorem two_le (h : Literal place start stop) : start.offset + 2 ≤ stop.offset := by
  obtain ⟨b, -, hover⟩ := h.body
  have hoffset := hover.offset_eq
  have hpos := Char.utf8Size_pos '"'
  simp only [byteLength_append, byteLength_cons, byteLength_nil] at hoffset
  omega

end Literal

/-! ## From programs to literals -/

@[simp] theorem mem_leadSet {c : Char} : leadSet.mem c = true ↔ c ≠ '\\' := by
  rw [leadSet, CharClass.mem, Bool.not_eq_true', ← Bool.not_eq_true]
  simp [CharClass.mem]

@[simp] theorem mem_plainSet {c : Char} :
    plainSet.mem c = true ↔ c ≠ '\\' ∧ c ≠ '"' ∧ c ≠ '\r' ∧ c ≠ '\n' := by
  rw [plainSet, CharClass.mem, Bool.not_eq_true', ← Bool.not_eq_true]
  simp [CharClass.mem, and_assoc]

@[simp] theorem mem_notLineFeed {c : Char} : CharClass.notLineFeed.mem c = true ↔ c ≠ '\n' := by
  rw [CharClass.notLineFeed, CharClass.mem, Bool.not_eq_true', ← Bool.not_eq_true]
  simp

section

variable {text : List Char} {eat : CharClass → Cursor → Option Cursor} {x y : Regular.Outcome}

/-- One turn of the loop over a body. -/
theorem body_step_iff (heat : Reads text eat) (hx : x.here.text = text) :
    Behaviour.alt (.seq (.move (eat (.single '\\'))) (.move (eat .notLineFeed)))
        (.move (eat plainSet)) x y ↔
      (∃ c, c ≠ '\n' ∧ Passes ['\\', c] x y) ∨
        ∃ c, (c ≠ '\\' ∧ c ≠ '"' ∧ c ≠ '\r' ∧ c ≠ '\n') ∧ Passes [c] x y := by
  refine or_congr ?_ ?_
  · constructor
    · rintro ⟨z, hslash, hc⟩
      rw [move_single_iff heat hx] at hslash
      obtain ⟨c, hc, hpass⟩ := (move_iff heat (hslash.text_eq hx)).1 hc
      exact ⟨c, mem_notLineFeed.1 hc, hslash.append hpass⟩
    · rintro ⟨c, hc, hpass⟩
      obtain ⟨z, hslash, hpass⟩ := Passes.exists_split (u := ['\\']) hpass
      refine ⟨z, (move_single_iff heat hx).2 hslash, ?_⟩
      exact (move_iff heat (hslash.text_eq hx)).2 ⟨c, mem_notLineFeed.2 hc, hpass⟩
  · rw [move_iff heat hx]
    simp only [mem_plainSet]

theorem body_iff (heat : Reads text eat) (hx : x.here.text = text) :
    Behaviour.star (.alt (.seq (.move (eat (.single '\\'))) (.move (eat .notLineFeed)))
        (.move (eat plainSet))) x y ↔ ∃ b, IsRun b ∧ Passes b x y := by
  constructor
  · intro h
    induction h using Relation.ReflTransGen.head_induction_on with
    | refl => exact ⟨[], .nil, .refl _⟩
    | head hstep _ ih =>
      rcases (body_step_iff heat hx).1 hstep with ⟨c, hc, hpass⟩ | ⟨c, hc, hpass⟩
      · obtain ⟨b, hb, hpass'⟩ := ih (hpass.text_eq hx)
        exact ⟨'\\' :: c :: b, .escape hc hb, hpass.append hpass'⟩
      · obtain ⟨b, hb, hpass'⟩ := ih (hpass.text_eq hx)
        exact ⟨c :: b, .plain hc.1 hc.2.1 hc.2.2.1 hc.2.2.2 hb, hpass.append hpass'⟩
  · rintro ⟨b, hb, hpass⟩
    induction hb generalizing x with
    | nil =>
      rw [hpass.eq_of_nil]
      exact Relation.ReflTransGen.refl
    | @escape c b hc hb ih =>
      obtain ⟨z, hz, hrest⟩ := Passes.exists_split (u := ['\\', c]) hpass
      exact .head ((body_step_iff heat hx).2 (.inl ⟨c, hc, hz⟩)) (ih (hz.text_eq hx) hrest)
    | @plain c b hslash hquote hr hn hb ih =>
      obtain ⟨z, hz, hrest⟩ := Passes.exists_split (u := [c]) hpass
      have hc : c ≠ '\\' ∧ c ≠ '"' ∧ c ≠ '\r' ∧ c ≠ '\n' := ⟨hslash, hquote, hr, hn⟩
      exact .head ((body_step_iff heat hx).2 (.inr ⟨c, hc, hz⟩)) (ih (hz.text_eq hx) hrest)

/-- A quotation mark, a body and a quotation mark. -/
def quoted (eat : CharClass → Cursor → Option Cursor) : Behaviour :=
  .seq (.move (eat (.single '"')))
    (.seq
      (.star (.alt (.seq (.move (eat (.single '\\'))) (.move (eat .notLineFeed)))
        (.move (eat plainSet))))
      (.move (eat (.single '"'))))

theorem quoted_iff (heat : Reads text eat) (hx : x.here.text = text) :
    quoted eat x y ↔ ∃ b, IsRun b ∧ Passes ('"' :: b ++ ['"']) x y := by
  constructor
  · rintro ⟨u, hopen, v, hbody, hclose⟩
    rw [move_single_iff heat hx] at hopen
    obtain ⟨b, hb, hpass⟩ := (body_iff heat (hopen.text_eq hx)).1 hbody
    have hv := hpass.text_eq (hopen.text_eq hx)
    rw [move_single_iff heat hv] at hclose
    exact ⟨b, hb, (hopen.append hpass).append hclose⟩
  · rintro ⟨b, hb, hpass⟩
    obtain ⟨v, hrest, hclose⟩ := hpass.exists_split
    obtain ⟨u, hopen, hbody⟩ := Passes.exists_split (u := ['"']) hrest
    have hu := hopen.text_eq hx
    refine ⟨u, (move_single_iff heat hx).2 hopen, v, (body_iff heat hu).2 ⟨b, hb, hbody⟩, ?_⟩
    exact (move_single_iff heat (hbody.text_eq hu)).2 hclose

/-- What comes before a literal, and the literal. -/
def literalWay (eat : CharClass → Cursor → Option Cursor) : Behaviour :=
  .seq (.note 0)
    (.seq (.group 1 (.alt (.check fun x => Assertion.textStart.holds x.here) (.move (eat leadSet))))
      (quoted eat))

theorem literalWay_iff {place : Cursor} (heat : Reads text eat) (hplace : place.text = text) :
    literalWay eat ⟨place, .none⟩ y ↔ ∃ start, Literal place start y.here ∧
      y.slots = frontMarks place start := by
  constructor
  · rintro ⟨_, rfl, _, ⟨_, rfl, z, hlead, rfl⟩, hquoted⟩
    obtain ⟨start, slots⟩ := z
    have hz : (place.before = [] ∧ start = place ∨ ∃ c, c ≠ '\\' ∧ Over [c] place start) ∧
        start.text = text ∧ slots = (Slots.none.note 0 place).note 2 place := by
      rcases hlead with ⟨hstart, heq⟩ | hmove
      · cases heq
        exact ⟨.inl ⟨List.isEmpty_iff.1 hstart, rfl⟩, hplace, rfl⟩
      · obtain ⟨c, hc, hpass⟩ := (move_iff heat hplace).1 hmove
        exact ⟨.inr ⟨c, mem_leadSet.1 hc, hpass.along⟩, hpass.text_eq hplace, hpass.slots_eq⟩
    obtain ⟨hlead, htext, hslots⟩ := hz
    obtain ⟨b, hb, hpass⟩ := (quoted_iff (x := ⟨start, slots.note 3 start⟩) heat htext).1 hquoted
    exact ⟨start, ⟨hlead, b, hb, hpass.along⟩, by rw [hpass.slots_eq, hslots, frontMarks]⟩
  · rintro ⟨start, ⟨hlead, b, hb, hover⟩, hslots⟩
    have hpass : Passes ('"' :: b ++ ['"'])
        ⟨start, frontMarks place start⟩ y := ⟨hover, hslots⟩
    have hstart : start.text = text := by
      rcases hlead with ⟨-, rfl⟩ | ⟨c, -, hc⟩
      · exact hplace
      · exact hc.text_eq.trans hplace
    refine ⟨_, rfl, _, ⟨_, rfl, ⟨start, (Slots.none.note 0 place).note 2 place⟩, ?_, rfl⟩,
      (quoted_iff heat hstart).2 ⟨b, hb, hpass⟩⟩
    rcases hlead with ⟨hempty, rfl⟩ | ⟨c, hc, hover⟩
    · exact .inl ⟨List.isEmpty_iff.2 hempty, rfl⟩
    · exact .inr ((move_iff heat hplace).2 ⟨c, mem_leadSet.2 hc, hover, rfl⟩)

end

theorem colonNext_iff {c : Cursor} :
    ColonNext c.after ↔ ∃ w d, (∀ x ∈ w, isBlank x = true) ∧ Over (w ++ [':']) c d := by
  constructor
  · rintro ⟨w, rest, hw, hafter⟩
    have hcolon : c.after = (w ++ [':']) ++ rest := by simp [hafter]
    obtain ⟨d, hover, -⟩ := Over.exists_of_after hcolon
    exact ⟨w, d, hw, hover⟩
  · rintro ⟨w, d, hw, hover⟩
    exact ⟨w, d.after, hw, by rw [hover.after_eq, List.append_assoc, List.singleton_append]⟩

theorem does_colonPart_iff {text : List Char} {label : Nat} {x y : Regular.Outcome}
    (hx : x.here.text = text) :
    (colonPart label).does ⟨false, byteLength text⟩ x y ↔
      ∃ w, (∀ c ∈ w, isBlank c = true) ∧ Passes (w ++ [':']) x y := by
  have heat := reads_reading text
  constructor
  · rintro ⟨z, hblanks, hcolon⟩
    obtain ⟨w, hw, hpass⟩ := (star_move_iff heat hx).1 hblanks
    exact ⟨w, hw, hpass.append ((move_single_iff heat (hpass.text_eq hx)).1 hcolon)⟩
  · rintro ⟨w, hw, hpass⟩
    obtain ⟨z, hblanks, hcolon⟩ := hpass.exists_split
    exact ⟨z, (star_move_iff heat hx).2 ⟨w, hw, hblanks⟩,
      (move_single_iff heat (hblanks.text_eq hx)).2 hcolon⟩

/-- What the pattern for keys has a match for at a place. -/
theorem does_keyProgram_iff {place : Cursor} {o : Regular.Outcome} :
    keyProgram.does ⟨false, byteLength place.text⟩ ⟨place, .none⟩ o ↔
      ∃ start stop w, Literal place start stop ∧ (∀ c ∈ w, isBlank c = true) ∧
        Over (w ++ [':']) stop o.here ∧ o.slots = marks place start stop := by
  have heat := reads_reading place.text
  constructor
  · rintro ⟨y, ⟨_, rfl, z, ⟨u, hlead, hquoted⟩, rfl⟩, hcolon⟩
    obtain ⟨start, hliteral, hslots⟩ := (literalWay_iff heat rfl).1 ⟨_, rfl, u, hlead, hquoted⟩
    obtain ⟨stop, slots⟩ := z
    obtain ⟨w, hw, hpass⟩ :=
      (does_colonPart_iff (x := ⟨stop, slots.note 1 stop⟩) hliteral.text_eq).1 hcolon
    refine ⟨start, stop, w, hliteral, hw, hpass.along, ?_⟩
    rw [hpass.slots_eq, marks, ← hslots]
  · rintro ⟨start, stop, w, hliteral, hw, hover, hslots⟩
    obtain ⟨_, rfl, u, hlead, hquoted⟩ :=
      (literalWay_iff (y := ⟨stop, frontMarks place start⟩) heat rfl).2 ⟨start, hliteral, rfl⟩
    refine ⟨⟨stop, marks place start stop⟩, ⟨_, rfl, _, ⟨u, hlead, hquoted⟩, rfl⟩, ?_⟩
    exact (does_colonPart_iff hliteral.text_eq).2 ⟨w, hw, hover, hslots⟩

theorem first_colonAhead_iff {c : Cursor} :
    colonAhead.first (byteLength c.text) c = none ↔ ¬ ColonNext c.after := by
  have hx : (Regular.Outcome.mk c .none).here.text = c.text := rfl
  rw [Part.first_eq_none_iff (by decide), colonNext_iff]
  constructor
  · rintro hnot ⟨w, d, hw, hover⟩
    exact hnot ⟨d, .none⟩ ((does_colonPart_iff hx).2 ⟨w, hw, hover, rfl⟩)
  · intro hnot o hdoes
    obtain ⟨w, hw, hpass⟩ := (does_colonPart_iff hx).1 hdoes
    exact hnot ⟨w, o.here, hw, hpass.along⟩

/-- What the pattern for strings has a match for at a place. -/
theorem exact_stringProgram_iff {origin : Nat} {place : Cursor} {o : Regular.Outcome} :
    stringProgram.exact ⟨origin, byteLength place.text⟩ ⟨place, .none⟩ o ↔
      ∃ start, Literal place start o.here ∧ ¬ ColonNext o.here.after ∧
        o.slots = marks place start o.here := by
  have heat := reads_eat? place.text
  constructor
  · rintro ⟨_, rfl, z, ⟨u, hlead, v, hopen, w, hbody, y, hclose, hcheck, rfl⟩, rfl⟩
    obtain ⟨start, hliteral, hslots⟩ :=
      (literalWay_iff heat rfl).1 ⟨_, rfl, u, hlead, v, hopen, w, hbody, hclose⟩
    refine ⟨start, hliteral, ?_, ?_⟩
    · have hfirst := Option.isNone_iff_eq_none.1 hcheck
      rw [← hliteral.text_eq] at hfirst
      exact first_colonAhead_iff.1 hfirst
    · rw [marks, ← hslots]
  · rintro ⟨start, hliteral, hnot, hslots⟩
    obtain ⟨_, rfl, u, hlead, v, hopen, w, hbody, hclose⟩ :=
      (literalWay_iff (y := ⟨o.here, frontMarks place start⟩) heat rfl).2 ⟨start, hliteral, rfl⟩
    have hfirst := first_colonAhead_iff.2 hnot
    rw [hliteral.text_eq] at hfirst
    have ho : o = ⟨o.here, marks place start o.here⟩ := by rw [← hslots]
    rw [ho]
    refine ⟨_, rfl, _, ⟨u, hlead, v, hopen, w, hbody, _, hclose, ?_, rfl⟩, rfl⟩
    exact Option.isNone_iff_eq_none.2 hfirst

/-! ## What the patterns find -/

/-- The first literal from `here` on with something behind it that is wanted. -/
structure IsFirst (wants : List Char → Prop) (here place start stop : Cursor) : Prop where
  text_eq : place.text = here.text
  le : here.offset ≤ place.offset
  literal : Literal place start stop
  wanted : wants stop.after
  least : ∀ place' start' stop', place'.text = here.text → here.offset ≤ place'.offset →
    Literal place' start' stop' → wants stop'.after → place.offset ≤ place'.offset

/-- A search from `here` on finds the first literal with something behind it that is wanted. -/
inductive FindsFirst (wants : List Char → Prop) (here : Cursor) :
    Except Fault (Option PatternMatch) → Prop where
  | none : (∀ place start stop, place.text = here.text → here.offset ≤ place.offset →
      Literal place start stop → ¬ wants stop.after) → FindsFirst wants here (.ok none)
  | some {m : PatternMatch} {place start stop : Cursor} : IsFirst wants here place start stop →
      m.span = ⟨start, stop⟩ → FindsFirst wants here (.ok (some m))

/-- The cut for look-behind leaves the literal of a match. -/
theorem find_of_marks {p : Pattern} {here place start stop : Cursor} {slots : Slots}
    (hlook : p.lookbehind = true) (hgroups : p.regex.groups = 1) (h : Literal place start stop)
    (hslots : slots = marks place start stop)
    (hsearch : p.regex.search here = .ok (p.regex.report slots)) :
    ∃ m, p.find here = .ok (some m) ∧ m.span = ⟨start, stop⟩ := by
  subst hslots
  obtain ⟨u, hstart⟩ := h.exists_over
  obtain ⟨b, -, hstop⟩ := h.body
  exact Pattern.find_of_marks hlook hgroups hstart hstop hsearch

theorem findsFirst_of_searched {p : Pattern} {wants : List Char → Prop} {here : Cursor}
    {ends : Cursor → Regular.Outcome → Prop} {found : Option Regular.Outcome}
    (hlook : p.lookbehind = true) (hgroups : p.regex.groups = 1)
    (hsearch : p.regex.search here = .ok (found.bind fun o => p.regex.report o.slots))
    (hends : ∀ place o, place.text = here.text → ends place o →
      ∃ start stop, Literal place start stop ∧ wants stop.after ∧ o.slots = marks place start stop)
    (hall : ∀ place start stop, place.text = here.text → Literal place start stop →
      wants stop.after → ∃ o, ends place o)
    (h : Searched ends here found) : FindsFirst wants here (p.find here) := by
  cases h with
  | none hnone =>
    have hfind : p.find here = .ok none := by
      rw [Pattern.find, hsearch]
      rfl
    rw [hfind]
    refine .none fun place start stop htext hle hliteral hwants => ?_
    obtain ⟨o, ho⟩ := hall place start stop htext hliteral hwants
    exact hnone place o htext hle ho
  | some htext hle hopen hleast =>
    obtain ⟨start, stop, hliteral, hwants, hslots⟩ := hends _ _ htext hopen
    obtain ⟨m, hfind, hspan⟩ := find_of_marks hlook hgroups hliteral hslots hsearch
    rw [hfind]
    refine .some ⟨htext, hle, hliteral, hwants, ?_⟩ hspan
    intro place' start' stop' htext' hle' h hwants'
    obtain ⟨o, ho⟩ := hall place' start' stop' htext' h hwants'
    exact hleast place' o htext' hle' ho

/-- The pattern for keys finds the first literal with a colon behind it. -/
theorem findsFirst_key {p : Pattern} (hmatcher : p.regex.matcher = .regular keyPart)
    (hlook : p.lookbehind = true) (hgroups : p.regex.groups = 1) (here : Cursor) :
    FindsFirst ColonNext here (p.find here) := by
  have hsearch : p.regex.search here =
      .ok ((keyPart.search (byteLength here.text) here).bind fun o => p.regex.report o.slots) := by
    simp only [Regex.search, Regex.searchWithin, hmatcher, here.offset_add_byteLength]
  refine findsFirst_of_searched hlook hgroups hsearch ?_ ?_
    (Part.searched_search (by decide) here)
  · intro place o htext hdoes
    rw [← htext] at hdoes
    obtain ⟨start, stop, w, hliteral, hw, hover, hslots⟩ := does_keyProgram_iff.1 hdoes
    exact ⟨start, stop, hliteral, colonNext_iff.2 ⟨w, o.here, hw, hover⟩, hslots⟩
  · intro place start stop htext hliteral hcolon
    obtain ⟨w, d, hw, hover⟩ := colonNext_iff.1 hcolon
    refine ⟨⟨d, marks place start stop⟩, ?_⟩
    rw [← htext]
    exact does_keyProgram_iff.2 ⟨start, stop, w, hliteral, hw, hover, rfl⟩

/-- The pattern for strings finds the first literal without a colon behind it, unless the search
    gives up. -/
theorem findsFirst_string {p : Pattern} (hmatcher : p.regex.matcher = .backtracking stringProgram)
    (hlook : p.lookbehind = true) (hgroups : p.regex.groups = 1) {here : Cursor}
    (hgives : ¬ p.regex.GivesUp here) :
    FindsFirst (fun cs => ¬ ColonNext cs) here (p.find here) := by
  have hfound : ∃ found, (Backtracking.search ⟨here.offset, byteLength here.text⟩
        (Backtracking.steps Regex.failureLimit stringProgram.size) stringProgram
        Regex.failureLimit here.after here).outcome? = some found ∧
      p.regex.search here = .ok (found.bind fun o => p.regex.report o.slots) := by
    simp only [Regex.search, Regex.searchWithin, hmatcher, here.offset_add_byteLength]
    generalize hresult : Backtracking.search _ _ _ _ _ _ = result
    cases result with
    | found there slots => exact ⟨_, rfl, rfl⟩
    | failed => exact ⟨_, rfl, rfl⟩
    | gaveUp => exact absurd ⟨_, hmatcher, hresult⟩ hgives
    | crossed => exact absurd hresult (Backtracking.search_ne_crossed (by decide))
  obtain ⟨found, houtcome, hsearch⟩ := hfound
  refine findsFirst_of_searched hlook hgroups hsearch ?_ ?_
    (Backtracking.searched_search (by decide) houtcome)
  · intro place o htext hexact
    rw [← htext] at hexact
    obtain ⟨start, hliteral, hnot, hslots⟩ := exact_stringProgram_iff.1 hexact
    exact ⟨start, o.here, hliteral, hnot, hslots⟩
  · intro place start stop htext hliteral hnot
    refine ⟨⟨stop, marks place start stop⟩, ?_⟩
    rw [← htext]
    exact exact_stringProgram_iff.2 ⟨start, hliteral, hnot, rfl⟩

end JsonText

end SyntaxHue
