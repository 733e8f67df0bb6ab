import SyntaxHue.Language.Markup
import SyntaxHue.Proofs.Regex.Passes
import SyntaxHue.Proofs.Regex.Read
import SyntaxHue.Proofs.Text.Fold

/-!
# The pattern for the text of elements

The pattern for the text of the elements with a given name is read, made a program, and followed
over a text. It asks for the name right behind an opening bracket and for no end of the name: what
comes between the name and the next closing bracket is passed, whether it begins with white space or
goes on with the name.
-/

namespace SyntaxHue

open PatternReader
open Cursor (Over)

namespace Inlined

/-- The characters of a text, each in any case. -/
def letters (word : List Char) : List Expr :=
  word.map fun c => .one (.anyCase (.single c))

/-- What may stand in a start tag behind the name. -/
def inTag : CharClass :=
  .compl (.anyCase (.union .none (.single '>')))

/-- Any character at all. -/
def anything : CharClass :=
  .anyCase (.union (.union .none .blank) (.compl .blank))

/-- A start tag of the elements `tag`. -/
def startTag (tag : List Char) : List Expr :=
  letters ('<' :: tag) ++ [.repetition 0 none true (.one inTag), .one (.anyCase (.single '>'))]

/-- An end tag of the elements `tag`. -/
def endTag (tag : List Char) : List Expr :=
  letters ('<' :: '/' :: tag ++ ['>'])

/-- The expression that the pattern stands for. -/
def expr (tag : List Char) : Expr :=
  .seq [.group 1 (.seq (startTag tag)), .repetition 1 none false (.one anything),
    .look .ahead true (.seq (endTag tag))]

/-! ### Reading -/

/-- What follows the name in the group of the pattern. -/
def restOfTag : List Char :=
  ['[', '^', '>', ']', '*', '>', ')']

/-- What stands between the group and the end tag. -/
def body : List Char :=
  ['[', '\\', 's', '\\', 'S', ']', '+', '?']

/-- The look-ahead of the pattern. -/
def ahead (tag : List Char) : List Char :=
  '(' :: '?' :: '=' :: (('<' :: '/' :: tag ++ ['>']) ++ [')'])

theorem toList_inlinedSource (tagName : String) :
    (Language.inlinedSource tagName).toList = '(' :: '?' :: 'i' :: ')' :: '(' ::
      ('<' :: tagName.toList ++ (restOfTag ++ (body ++ ahead tagName.toList))) := by
  rw [Language.inlinedSource, ahead]
  simp only [String.toList_append, List.append_assoc]
  rfl

theorem notMem_special_of_mem {tag : List Char} (h : ∀ c ∈ tag, c.isAlpha = true) :
    ∀ c ∈ tag, c ∉ special :=
  fun c hc => notMem_special_of_isAlpha (h c hc)

theorem two_le_startTag (tag : List Char) : 2 ≤ (startTag tag).length := by
  simp [startTag, letters]

theorem two_le_endTag (tag : List Char) : 2 ≤ (endTag tag).length := by
  simp [endTag, letters]

variable {tag rest : List Char} {s : PatternReader} {depth : Nat}

/-- The inside of the group in the pattern. -/
theorem yields_startTag (htag : ∀ c ∈ tag, c.isAlpha = true) (hs : s.numbered = false) :
    Yields (tag.length + 9) (alternatives · depth)
      (s.facing true ('<' :: tag ++ (restOfTag ++ rest))) (.seq (startTag tag))
      (s.facing true (')' :: rest)) := by
  have hend : Yields 2 (items · depth) (s.facing true (')' :: rest)) []
      (s.facing true (')' :: rest)) := yields_close
  have hstop : ∀ e, repetition e (s.facing true (')' :: rest)) =
      .ok (e, s.facing true (')' :: rest)) := fun _ => rfl
  have hbracket : ∀ c ∈ ['>'], c ∉ special := List.forall_mem_singleton.2 (by decide)
  have hclose := Yields.chars hbracket hstop hend
  have hclass : Yields 1 (atom · depth) (s.facing true (restOfTag ++ rest)) (.one inTag)
      (s.facing true ('*' :: '>' :: ')' :: rest)) :=
    .of_succ fun _ _ => rfl
  have hrepeat : repetition (.one inTag) (s.facing true ('*' :: '>' :: ')' :: rest)) =
      .ok (.repetition 0 none true (.one inTag), s.facing true (['>'] ++ ')' :: rest)) := rfl
  have hattributes := Yields.cons (List.cons_ne_nil _ _) hclass hrepeat rfl hclose
  have hname : ∀ c ∈ '<' :: tag, c ∉ special :=
    List.forall_mem_cons.2 ⟨by decide, notMem_special_of_mem htag⟩
  have hopen : ∀ e, repetition e (s.facing true (restOfTag ++ rest)) =
      .ok (e, s.facing true (restOfTag ++ rest)) := fun _ => rfl
  have hitems := Yields.chars hname hopen hattributes
  refine (hitems.body (two_le_startTag tag) (fun _ => rfl) hs).mono ?_
  simp only [List.length_cons, List.length_nil]
  omega

theorem yields_endTag (htag : ∀ c ∈ tag, c.isAlpha = true) (hs : s.numbered = false) :
    Yields (tag.length + 8) (alternatives · depth)
      (s.facing true (('<' :: '/' :: tag ++ ['>']) ++ [')'])) (.seq (endTag tag))
      (s.facing true [')']) := by
  have hend : Yields 2 (items · depth) (s.facing true [')']) [] (s.facing true [')']) :=
    yields_close
  have hstop : ∀ e, repetition e (s.facing true [')']) = .ok (e, s.facing true [')']) :=
    fun _ => rfl
  have hname : ∀ c ∈ '<' :: '/' :: tag ++ ['>'], c ∉ special := by
    intro c hc
    rcases List.mem_append.1 hc with hc | hc
    · have hopen : ∀ c ∈ '<' :: '/' :: tag, c ∉ special :=
        List.forall_mem_cons.2 ⟨by decide,
          List.forall_mem_cons.2 ⟨by decide, notMem_special_of_mem htag⟩⟩
      exact hopen c hc
    · rw [List.mem_singleton.1 hc]
      decide
  have hitems := Yields.chars hname hstop hend
  rw [List.append_nil] at hitems
  refine (hitems.body (two_le_endTag tag) (fun _ => rfl) hs).mono ?_
  simp only [List.length_append, List.length_cons, List.length_nil]
  omega

/-- The reader behind the pattern. -/
def behind (s : PatternReader) (tag : List Char) : PatternReader :=
  { s with groups := s.groups + 1,
           extents := (s.groups + 1, (Expr.seq (startTag tag)).extent) :: s.extents }

theorem yields_ahead (htag : ∀ c ∈ tag, c.isAlpha = true) (hs : s.numbered = false) :
    Yields (tag.length + 11) (atom · 0) (s.facing true (ahead tag))
      (.look .ahead true (.seq (endTag tag))) (s.facing true []) :=
  .paren (by simp) (by decide) (.ahead (yields_endTag htag hs))

theorem yields_group (htag : ∀ c ∈ tag, c.isAlpha = true) (hs : s.numbered = false) :
    Yields (tag.length + 11) (atom · 0)
      (s.facing true ('(' :: ('<' :: tag ++ (restOfTag ++ rest))))
      (.group (s.groups + 1) (.seq (startTag tag))) ((behind s tag).facing true rest) := by
  have hstart : Yields (tag.length + 9) (alternatives · 1)
      ({ s with groups := s.groups + 1 }.facing true ('<' :: tag ++ (restOfTag ++ rest)))
      (.seq (startTag tag)) ({ s with groups := s.groups + 1 }.facing true (')' :: rest)) :=
    yields_startTag htag hs
  exact .paren (by simp) (by decide) (.captured (by decide) hstart)

/-- The pattern without the flag in front. -/
theorem yields_items (htag : ∀ c ∈ tag, c.isAlpha = true) (hs : s.numbered = false) :
    Yields (tag.length + 14) (items · 0)
      (s.facing true ('(' :: ('<' :: tag ++ (restOfTag ++ (body ++ ahead tag)))))
      [.group (s.groups + 1) (.seq (startTag tag)), .repetition 1 none false (.one anything),
        .look .ahead true (.seq (endTag tag))]
      ((behind s tag).facing true []) := by
  -- from the back: the look-ahead, the body, and the group
  have hlook : repetition (.look .ahead true (.seq (endTag tag))) ((behind s tag).facing true []) =
      .ok (.look .ahead true (.seq (endTag tag)), (behind s tag).facing true []) := rfl
  have hahead : Yields (tag.length + 11) (atom · 0) ((behind s tag).facing true (ahead tag))
      (.look .ahead true (.seq (endTag tag))) ((behind s tag).facing true []) :=
    yields_ahead htag hs
  have hlast := Yields.cons (List.cons_ne_nil _ _) hahead hlook rfl yields_nil
  have hbody : Yields 1 (atom · 0) ((behind s tag).facing true (body ++ ahead tag)) (.one anything)
      ((behind s tag).facing true ('+' :: '?' :: ahead tag)) :=
    .of_succ fun _ _ => rfl
  have hlazy : repetition (.one anything)
      ((behind s tag).facing true ('+' :: '?' :: ahead tag)) =
        .ok (.repetition 1 none false (.one anything), (behind s tag).facing true (ahead tag)) :=
    rfl
  have hrest := Yields.cons (List.cons_ne_nil _ _) hbody hlazy rfl hlast
  have hgroup : ∀ e, repetition e ((behind s tag).facing true (body ++ ahead tag)) =
      .ok (e, (behind s tag).facing true (body ++ ahead tag)) := fun _ => rfl
  have hall := Yields.cons (List.cons_ne_nil _ _) (yields_group htag hs) (hgroup _) rfl hrest
  refine hall.mono ?_
  omega

theorem read_inlinedSource {tagName : String} (htag : ∀ c ∈ tagName.toList, c.isAlpha = true) :
    Expr.read (Language.inlinedSource tagName).toList =
      .ok ⟨expr tagName.toList, 1, []⟩ := by
  rw [toList_inlinedSource]
  set tag := tagName.toList
  set pattern := '(' :: ('<' :: tag ++ (restOfTag ++ (body ++ ahead tag)))
  set start : PatternReader :=
    { rest := [], size := byteLength ('(' :: '?' :: 'i' :: ')' :: pattern) }
  have hflag : Yields 2 (atom · 0) (start.facing false ('(' :: '?' :: 'i' :: ')' :: pattern))
      .empty (start.facing true pattern) :=
    .paren (by simp) (by decide) yields_anyCase
  have hempty : repetition .empty (start.facing true pattern) =
      .ok (.empty, start.facing true pattern) := rfl
  have hpassed : (start.facing true pattern).rest.length <
      (start.facing false ('(' :: '?' :: 'i' :: ')' :: pattern)).rest.length := by
    simp only [facing, List.length_cons]
    omega
  have hitems := Yields.pass hflag hempty hpassed (yields_items htag rfl)
  have hread := hitems.body (by simp) (fun _ => rfl) rfl
  have hfuel : max 2 (tag.length + 14) + 1 + 2 ≤
      8 * ('(' :: '?' :: 'i' :: ')' :: pattern).length + 8 := by
    simp only [pattern, List.length_cons, List.length_append]
    omega
  have hrun : (alternatives (8 * ('(' :: '?' :: 'i' :: ')' :: pattern).length + 8) 0).run
      { rest := '(' :: '?' :: 'i' :: ')' :: pattern,
        size := byteLength ('(' :: '?' :: 'i' :: ')' :: pattern) } =
      .ok (expr tag, (behind start tag).facing true []) :=
    hread _ hfuel
  rw [Expr.read]
  dsimp only
  rw [hrun]
  rfl

/-! ### Compiling -/

/-- The expression that is compiled: the match ends in front of the end tag. -/
def marked (tag : List Char) : Expr :=
  .seq [.group 0 (.seq [.group 1 (.seq (startTag tag)), .repetition 1 none false (.one anything)]),
    .seq (endTag tag)]

theorem anyNeedsWayBack_letters (word : List Char) (es : List Expr) :
    Expr.anyNeedsWayBack [] (letters word ++ es) = Expr.anyNeedsWayBack [] es := by
  induction word with
  | nil => rfl
  | cons c word ih => exact ih

theorem lastGroupOf_letters (word : List Char) (es : List Expr) :
    Expr.lastGroupOf (letters word ++ es) = Expr.lastGroupOf es := by
  induction word with
  | nil => rfl
  | cons c word ih =>
    change max 0 (Expr.lastGroupOf (letters word ++ es)) = _
    rw [ih, Nat.zero_max]

theorem endTag_eq (tag : List Char) : endTag tag = letters ('<' :: '/' :: tag ++ ['>']) ++ [] :=
  (List.append_nil _).symm

theorem needsWayBack_marked (tag : List Char) : (marked tag).needsWayBack [] = false := by
  have hstart : Expr.anyNeedsWayBack [] (startTag tag) = false := anyNeedsWayBack_letters _ _
  have hend : Expr.anyNeedsWayBack [] (endTag tag) = false := by
    rw [endTag_eq, anyNeedsWayBack_letters]
    rfl
  simp [marked, Expr.needsWayBack, Expr.anyNeedsWayBack, hstart, hend]

theorem lastGroup_marked (tag : List Char) : (marked tag).lastGroup = 1 := by
  have hstart : Expr.lastGroupOf (startTag tag) = 0 := lastGroupOf_letters _ _
  have hend : Expr.lastGroupOf (endTag tag) = 0 := by
    rw [endTag_eq, lastGroupOf_letters]
    rfl
  simp [marked, Expr.lastGroup, Expr.lastGroupOf, hstart, hend]

theorem program_of_toPart {e : Expr} {p : Part} (h : e.toPart false = .ok p) :
    p.program = (e.regular false 0).1 := by
  rw [Expr.toPart] at h
  cases hcounts : e.countsOk with
  | false =>
    rw [hcounts] at h
    cases h
  | true =>
    cases hlarge : e.isTooLarge with
    | true =>
      rw [hcounts, hlarge] at h
      cases h
    | false =>
      rw [hcounts, hlarge] at h
      cases h
      rfl

theorem exists_part_of_compile {tagName : String} {r : Regex}
    (htag : ∀ c ∈ tagName.toList, c.isAlpha = true)
    (h : Regex.compile (Language.inlinedSource tagName).toList = .ok r) :
    ∃ p : Part, r = ⟨.regular p, 1⟩ ∧
      p.program = ((marked tagName.toList).regular false 0).1 := by
  rw [Regex.compile, read_inlinedSource htag] at h
  change (if (marked tagName.toList).needsWayBack [] then _ else _) = _ at h
  rw [needsWayBack_marked, if_neg Bool.false_ne_true] at h
  change (do return (⟨.regular (← (marked tagName.toList).toPart false),
    (marked tagName.toList).lastGroup⟩ : Regex)) = Except.ok r at h
  rw [lastGroup_marked] at h
  cases hpart : (marked tagName.toList).toPart false with
  | error e =>
    rw [hpart] at h
    cases h
  | ok p =>
    rw [hpart] at h
    cases h
    exact ⟨p, rfl, program_of_toPart hpart⟩

/-! ### Matching -/

section Matching

variable {text : List Char} {r : Regular.Reading} {x y z : Regular.Outcome} {e : Expr}
  {es fs : List Expr} {label : Nat}

/-- What expressions in a row do is done by the first one and then by the others, whatever their
    labels are. -/
theorem exists_of_regularSeq_cons (h : (Expr.regularSeq false (e :: es) label).1.does r x z) :
    ∃ y next, (e.regular false label).1.does r x y ∧
      (Expr.regularSeq false es next).1.does r y z := by
  cases es with
  | nil => exact ⟨z, 0, h, rfl⟩
  | cons f es =>
    obtain ⟨y, hfirst, hothers⟩ := h
    exact ⟨y, _, hfirst, hothers⟩

/-- `u` is `word`, each letter in some case. -/
def Recased (word u : List Char) : Prop :=
  List.Forall₂ (fun a c => a ∈ caseVariants c) word u

/-- Letters pass a word that is theirs in some case. -/
theorem exists_of_letters {word : List Char} (heat : Reads text r.eat?) (hx : x.here.text = text)
    (h : (Expr.regularSeq false (letters word ++ es) label).1.does r x z) :
    ∃ u y next, Recased word u ∧ Passes u x y ∧ (Expr.regularSeq false es next).1.does r y z := by
  induction word generalizing x label with
  | nil => exact ⟨[], x, label, .nil, .refl x, h⟩
  | cons a word ih =>
    obtain ⟨v, next, hfirst, hothers⟩ := exists_of_regularSeq_cons h
    obtain ⟨c, hc, hpass⟩ := (move_iff heat hx).1 hfirst
    obtain ⟨u, y, next, hu, hpass', hrest⟩ := ih (hpass.text_eq hx) hothers
    have hvariant : a ∈ caseVariants c := by
      obtain ⟨d, hd, had⟩ := List.any_eq_true.1 hc
      rwa [CharClass.mem_single.1 had] at hd
    exact ⟨c :: u, y, next, .cons hvariant hu, hpass.append hpass', hrest⟩

theorem ne_of_mem_inTag {c : Char} (h : inTag.mem c = true) : c ≠ '>' := by
  rintro rfl
  exact absurd h (by decide)

/-- Brackets and slashes have no other case. -/
theorem Recased.eq_of_cons {a : Char} {word u : List Char} (h : Recased (a :: word) u)
    (ha : a.toNat < 65) : ∃ v, u = a :: v ∧ Recased word v := by
  cases h with
  | cons hc hv =>
    rw [eq_of_mem_caseVariants ha hc]
    exact ⟨_, rfl, hv⟩

/-- A start tag whose name begins with `tag`. -/
def IsStartTag (tag u : List Char) : Prop :=
  ∃ name more, Recased tag name ∧ '>' ∉ more ∧ u = '<' :: (name ++ more) ++ ['>']

/-- The end tag of the elements `tag`. -/
def IsEndTag (tag u : List Char) : Prop :=
  ∃ name, Recased tag name ∧ u = '<' :: '/' :: name ++ ['>']

theorem exists_of_startTag (heat : Reads text r.eat?) (hx : x.here.text = text)
    (h : (Expr.regularSeq false (startTag tag) label).1.does r x z) :
    ∃ u, IsStartTag tag u ∧ Passes u x z := by
  obtain ⟨u, y, next, hu, hpass, hrest⟩ := exists_of_letters heat hx h
  have hy := hpass.text_eq hx
  obtain ⟨v, next, hloop, hclose⟩ := exists_of_regularSeq_cons hrest
  obtain ⟨more, hmore, hpass'⟩ := (star_move_iff heat hy).1 hloop
  have hclose' : (Expr.regularSeq false (letters ['>'] ++ []) next).1.does r v z := hclose
  obtain ⟨w, z', _, hw, hpass'', hend⟩ := exists_of_letters heat (hpass'.text_eq hy) hclose'
  cases hend
  obtain ⟨name, rfl, hname⟩ := hu.eq_of_cons (by decide)
  obtain ⟨_, rfl, ⟨⟩⟩ := hw.eq_of_cons (by decide)
  refine ⟨_, ⟨name, more, hname, fun hmem => ne_of_mem_inTag (hmore _ hmem) rfl, rfl⟩, ?_⟩
  exact (hpass.append hpass').append hpass''

theorem exists_of_endTag (heat : Reads text r.eat?) (hx : x.here.text = text)
    (h : (Expr.regularSeq false (endTag tag) label).1.does r x z) :
    ∃ u, IsEndTag tag u ∧ Passes u x z := by
  have hsplit : endTag tag = letters ('<' :: '/' :: tag) ++ (letters ['>'] ++ []) := by
    rw [endTag, letters, List.map_append, List.append_nil]
    rfl
  rw [hsplit] at h
  obtain ⟨u, y, next, hu, hpass, hclose⟩ := exists_of_letters heat hx h
  obtain ⟨w, z', _, hw, hpass', hend⟩ := exists_of_letters heat (hpass.text_eq hx) hclose
  cases hend
  obtain ⟨v, rfl, hv⟩ := hu.eq_of_cons (by decide)
  obtain ⟨name, rfl, hname⟩ := hv.eq_of_cons (by decide)
  obtain ⟨_, rfl, ⟨⟩⟩ := hw.eq_of_cons (by decide)
  exact ⟨_, ⟨name, hname, rfl⟩, hpass.append hpass'⟩

/-- What the pattern does: it notes where its group and the match end, and leaves an end tag behind
    the match. -/
theorem exists_of_marked {place : Cursor} (heat : Reads text r.eat?) (hplace : place.text = text)
    (h : ((marked tag).regular false 0).1.does r ⟨place, .none⟩ z) :
    ∃ start body close : List Char, ∃ inside behind : Cursor,
      IsStartTag tag start ∧ Over start place inside ∧ Over body inside behind ∧
      IsEndTag tag close ∧ Over close behind z.here ∧ z.slots = .marks place inside behind := by
  -- the match notes its places at 0 and 1, the group in it at 2 and 3
  obtain ⟨_, next, ⟨_, rfl, w, hmatch, rfl⟩, hend⟩ := exists_of_regularSeq_cons h
  have hmatch' : (Expr.regularSeq false [.group 1 (.seq (startTag tag)),
      .repetition 1 none false (.one anything)] 0).1.does r _ w := hmatch
  obtain ⟨_, next', ⟨_, rfl, y, hstart, rfl⟩, _, rfl, v, hfirst, hothers⟩ :=
    exists_of_regularSeq_cons hmatch'
  obtain ⟨start, htag, hpass⟩ := exists_of_startTag
    (x := ⟨place, (Slots.none.note 0 place).note 2 place⟩) heat hplace hstart
  have hy := hpass.text_eq hplace
  obtain ⟨c, -, hpassed⟩ :=
    (move_iff (x := ⟨y.here, y.slots.note 3 y.here⟩) heat hy).1 hfirst
  obtain ⟨more, -, hpassed'⟩ := (star_move_iff heat (hpassed.text_eq hy)).1 hothers
  have hbody := hpassed.append hpassed'
  obtain ⟨close, hclose, hpass'⟩ := exists_of_endTag
    (x := ⟨w.here, w.slots.note 1 w.here⟩) heat (hbody.text_eq hy) hend
  refine ⟨start, _, close, y.here, w.here, htag, hpass.along, hbody.along, hclose, hpass'.along, ?_⟩
  rw [hpass'.slots_eq, hbody.slots_eq, hpass.slots_eq]
  rfl

end Matching

/-- The text `matched` stands at `offset` between a start tag and an end tag. -/
structure Stands (tag text : List Char) (offset : Nat) (matched : List Char) : Prop where
  tags : ∃ before start close after, text = before ++ (start ++ (matched ++ (close ++ after))) ∧
    byteLength before + byteLength start = offset ∧ IsStartTag tag start ∧ IsEndTag tag close

theorem stands_of_find {p : Pattern} {part : Part} {here : Cursor} {m : PatternMatch}
    (hregex : p.regex = ⟨.regular part, 1⟩)
    (hpart : part.program = ((marked tag).regular false 0).1) (hlook : p.lookbehind = true)
    (h : p.find here = .ok (some m)) :
    Stands tag here.text m.span.start.offset m.span.chars := by
  obtain ⟨found, hsearch⟩ := Pattern.exists_search_of_find h
  obtain ⟨place, o, hplace, -, hdoes, hreport⟩ := Regex.does_of_search hsearch
  rw [hregex] at hdoes
  change part.program.does ⟨false, byteLength here.text⟩ ⟨place, .none⟩ o at hdoes
  rw [hpart] at hdoes
  obtain ⟨start, body, close, inside, behind, hstart, hopen, hbody, hclose, hbehind, hslots⟩ :=
    exists_of_marked (reads_reading here.text) hplace hdoes
  -- the first group is the start tag, so the cut leaves the body
  rw [← hreport, hslots] at hsearch
  obtain ⟨m', hfind, hspan⟩ := Pattern.find_of_marks hlook (by rw [hregex]) hopen hbody hsearch
  cases h.symm.trans hfind
  have hchars : m.span.chars = body := by
    have hafter := (Pattern.inOrder_of_find h).after_eq
    rw [hspan] at hafter ⊢
    exact List.append_cancel_right (hafter.symm.trans hbody.after_eq)
  rw [hchars, hspan]
  refine ⟨place.before.reverse, start, close, o.here.after, ?_, ?_, hstart, hclose⟩
  · rw [← hplace, Cursor.text, hopen.after_eq, hbody.after_eq, hbehind.after_eq]
  · rw [hopen.offset_eq, place.offset_eq]

/-! ### Names -/

/-- Whether a character ends the name of an element. -/
def endsName (c : Char) : Bool :=
  isBlank c || c = '/' || c = '>'

/-- The name of an element, in what its start tag has between the brackets. -/
def elementName (inner : List Char) : List Char :=
  inner.takeWhile fun c => !endsName c

theorem endsName_of_isAlpha {c : Char} (h : c.isAlpha = true) : endsName c = false := by
  have hall : c.isAlpha = true → endsName c = false := by
    have hle := toNat_le_of_isAlpha h
    apply forall_ascii c _ (by omega)
    decide +kernel
  exact hall h

theorem Recased.eqAnyCase {word u : List Char} (h : Recased word u)
    (hword : ∀ c ∈ word, c.isAlpha = true) : EqAnyCase u word := by
  induction h with
  | nil => rfl
  | cons hc _ ih =>
    obtain ⟨hletter, hword⟩ := List.forall_mem_cons.1 hword
    rw [EqAnyCase, List.map_cons, List.map_cons, ih hword,
      (foldCase_eq_of_mem_caseVariants hletter hc).1]

/-- Letters of a name do not end it, in whatever case they are. -/
theorem Recased.endsName {word u : List Char} (h : Recased word u)
    (hword : ∀ c ∈ word, c.isAlpha = true) : ∀ c ∈ u, endsName c = false := by
  induction h with
  | nil => exact List.forall_mem_nil _
  | cons hc _ ih =>
    obtain ⟨hletter, hword⟩ := List.forall_mem_cons.1 hword
    refine List.forall_mem_cons.2 ⟨?_, ih hword⟩
    rcases (foldCase_eq_of_mem_caseVariants hletter hc).2 with halpha | rfl | rfl
    · exact endsName_of_isAlpha halpha
    · decide +kernel
    · decide +kernel

/-- Where the text of an element stands: in `text`, from `offset` on, right behind a start tag with
    the element name `name` and right before the end tag of the name `closing`. -/
structure Encloses (text : List Char) (offset : Nat) (matched name closing : List Char) : Prop where
  split : ∃ before inner after,
    text = before ++ (('<' :: inner ++ ['>']) ++
      (matched ++ (('<' :: '/' :: closing ++ ['>']) ++ after))) ∧
    byteLength before + byteLength ('<' :: inner ++ ['>']) = offset ∧
    '>' ∉ inner ∧ elementName inner = name

theorem Stands.exists_encloses {text matched : List Char} {offset : Nat}
    (h : Stands tag text offset matched) (htag : ∀ c ∈ tag, c.isAlpha = true) :
    ∃ own more closing, Encloses text offset matched (own ++ more) closing ∧
      EqAnyCase own tag ∧ EqAnyCase closing tag := by
  obtain ⟨before, _, _, after, htext, hoffset, ⟨own, more, hown, hmore, rfl⟩,
    closing, hclosing, rfl⟩ := h.tags
  have hletters := hown.endsName htag
  have hname : elementName (own ++ more) = own ++ elementName more := by
    rw [elementName, List.takeWhile_append_of_pos]
    · rfl
    · intro c hc
      rw [hletters c hc]
      rfl
  refine ⟨own, elementName more, closing, ⟨before, own ++ more, after, htext, hoffset, ?_, hname⟩,
    hown.eqAnyCase htag, hclosing.eqAnyCase htag⟩
  rw [List.mem_append, not_or]
  refine ⟨fun hmem => ?_, hmore⟩
  have hends := hletters _ hmem
  contradiction

end Inlined

end SyntaxHue
