import SyntaxHue.Proofs.Pattern

/-!
# Passing characters

What a regular program does is followed over a text by the characters that it passes: a class passes
one of its characters, a loop over a class any number of them, and no place is noted on the way. A
pattern with look-behind notes the places of its first group and of the match; if the group comes
first, the cut leaves what comes behind it.
-/

namespace SyntaxHue

namespace Cursor

/-- The characters `u` lie between two places of a text. -/
structure Over (u : List Char) (c d : Cursor) : Prop where
  text_eq : d.text = c.text
  after_eq : c.after = u ++ d.after

namespace Over

variable {u v : List Char} {b c d : Cursor}

theorem nil (c : Cursor) : Over [] c c :=
  ⟨rfl, rfl⟩

theorem append (h : Over u b c) (h' : Over v c d) : Over (u ++ v) b d :=
  ⟨h'.text_eq.trans h.text_eq, by rw [h.after_eq, h'.after_eq, List.append_assoc]⟩

theorem eq_of_nil (h : Over [] c d) : d = c := by
  refine eq_of_offset h.text_eq ?_
  have hc := c.offset_add_byteLength
  have hd := d.offset_add_byteLength
  rw [h.text_eq] at hd
  have hafter := h.after_eq
  rw [List.nil_append] at hafter
  rw [hafter] at hc
  omega

theorem offset_eq (h : Over u c d) : d.offset = c.offset + byteLength u := by
  have hc := c.offset_add_byteLength
  have hd := d.offset_add_byteLength
  rw [h.text_eq] at hd
  rw [h.after_eq, byteLength_append] at hc
  omega

theorem exists_split (h : Over (u ++ v) b d) : ∃ c, Over u b c ∧ Over v c d := by
  have hafter := h.after_eq
  rw [List.append_assoc] at hafter
  obtain ⟨c, htext, hc, -, -⟩ := Cursor.exists_after hafter
  exact ⟨c, ⟨htext, by rw [hafter, hc]⟩, h.text_eq.trans htext.symm, hc⟩

theorem exists_of_after (h : c.after = u ++ v) : ∃ d, Over u c d ∧ d.after = v := by
  obtain ⟨d, htext, hd, -, -⟩ := Cursor.exists_after h
  exact ⟨d, ⟨htext, by rw [h, hd]⟩, hd⟩

end Over

theorem eat?_eq_some_iff {set : CharClass} {c d : Cursor} :
    c.eat? set = some d ↔ ∃ x, set.mem x = true ∧ Over [x] c d := by
  constructor
  · intro h
    unfold eat? at h
    split at h
    · rename_i x there hnext
      split at h
      · rename_i hx
        cases h
        obtain ⟨htext, hafter, -⟩ := next?_eq_some hnext
        exact ⟨x, hx, htext, hafter⟩
      · simp at h
    · simp at h
  · rintro ⟨x, hx, hover⟩
    obtain ⟨there, hnext, hafter⟩ := next?_cons hover.after_eq
    obtain ⟨htext, hcons, hoffset⟩ := next?_eq_some hnext
    have hd : there = d :=
      eq_of_offset (htext.trans hover.text_eq.symm) (by rw [hoffset, hover.offset_eq]; simp)
    rw [eat?, hnext]
    simp only [hx, if_true, hd]

end Cursor

open Cursor (Over)

/-- Reading to the right, with the end of the text as the bound. -/
theorem Regular.Reading.eat?_eq_some_iff {set : CharClass} {c d : Cursor} :
    (Reading.mk false (byteLength c.text)).eat? set c = some d ↔
      ∃ x, set.mem x = true ∧ Over [x] c d := by
  rw [← Cursor.eat?_eq_some_iff]
  simp only [Reading.eat?, Bool.false_eq_true, if_false]
  constructor
  · intro h
    split at h
    · exact h
    · simp at h
  · intro h
    obtain ⟨x, -, hover⟩ := Cursor.eat?_eq_some_iff.1 h
    have hle := d.offset_le
    have hpos := x.utf8Size_pos
    rw [hover.text_eq, hover.offset_eq, byteLength_cons] at hle
    rwa [if_pos (by omega)]

@[simp] theorem CharClass.mem_single {a c : Char} : (single a).mem c = true ↔ c = a := by
  simp only [single, mem, Bool.and_eq_true, decide_eq_true_eq]
  constructor
  · rintro ⟨hle, hge⟩
    exact Char.le_antisymm hge hle
  · rintro rfl
    exact ⟨Char.le_refl _, Char.le_refl _⟩

/-- The characters of a class are passed one at a time. -/
def Reads (text : List Char) (eat : CharClass → Cursor → Option Cursor) : Prop :=
  ∀ set c d, c.text = text → (eat set c = some d ↔ ∃ x, set.mem x = true ∧ Over [x] c d)

theorem reads_eat? (text : List Char) : Reads text Cursor.eat? :=
  fun _ _ _ _ => Cursor.eat?_eq_some_iff

theorem reads_reading (text : List Char) :
    Reads text (Regular.Reading.mk false (byteLength text)).eat? := by
  rintro set c d rfl
  exact Regular.Reading.eat?_eq_some_iff

/-- The characters `u` are passed, and no place is noted. -/
structure Passes (u : List Char) (x y : Regular.Outcome) : Prop where
  along : Over u x.here y.here
  slots_eq : y.slots = x.slots

section

variable {text u : List Char} {eat : CharClass → Cursor → Option Cursor} {set : CharClass}
  {x y z : Regular.Outcome}

theorem Passes.refl (x : Regular.Outcome) : Passes [] x x :=
  ⟨.nil _, rfl⟩

theorem Passes.append {v : List Char} (h : Passes u x y) (h' : Passes v y z) :
    Passes (u ++ v) x z :=
  ⟨h.along.append h'.along, h'.slots_eq.trans h.slots_eq⟩

theorem Passes.exists_split {v : List Char} (h : Passes (u ++ v) x z) :
    ∃ y, Passes u x y ∧ Passes v y z := by
  obtain ⟨c, hu, hv⟩ := h.along.exists_split
  exact ⟨⟨c, x.slots⟩, ⟨hu, rfl⟩, hv, h.slots_eq⟩

theorem Passes.text_eq (h : Passes u x y) (hx : x.here.text = text) : y.here.text = text :=
  h.along.text_eq.trans hx

theorem Passes.eq_of_nil (h : Passes [] x y) : y = x := by
  obtain ⟨here, slots⟩ := y
  obtain ⟨hover, rfl⟩ := h
  cases hover.eq_of_nil
  rfl

theorem move_iff (heat : Reads text eat) (hx : x.here.text = text) :
    Behaviour.move (eat set) x y ↔ ∃ c, set.mem c = true ∧ Passes [c] x y := by
  constructor
  · rintro ⟨there, hthere, rfl⟩
    obtain ⟨c, hc, hover⟩ := (heat _ _ _ hx).1 hthere
    exact ⟨c, hc, hover, rfl⟩
  · rintro ⟨c, hc, hover, hslots⟩
    exact ⟨y.here, (heat _ _ _ hx).2 ⟨c, hc, hover⟩, by rw [← hslots]⟩

theorem move_single_iff {c : Char} (heat : Reads text eat) (hx : x.here.text = text) :
    Behaviour.move (eat (.single c)) x y ↔ Passes [c] x y := by
  rw [move_iff heat hx]
  simp

theorem star_move_iff (heat : Reads text eat) (hx : x.here.text = text) :
    Behaviour.star (.move (eat set)) x y ↔
      ∃ w, (∀ c ∈ w, set.mem c = true) ∧ Passes w x y := by
  constructor
  · intro h
    induction h using Relation.ReflTransGen.head_induction_on with
    | refl => exact ⟨[], List.forall_mem_nil _, .refl _⟩
    | head hstep _ ih =>
      obtain ⟨c, hc, hpass⟩ := (move_iff heat hx).1 hstep
      obtain ⟨w, hw, hpass'⟩ := ih (hpass.text_eq hx)
      exact ⟨c :: w, List.forall_mem_cons.2 ⟨hc, hw⟩, hpass.append hpass'⟩
  · rintro ⟨w, hw, hpass⟩
    induction w generalizing x with
    | nil =>
      rw [hpass.eq_of_nil]
      exact Relation.ReflTransGen.refl
    | cons c w ih =>
      obtain ⟨hc, hw⟩ := List.forall_mem_cons.1 hw
      obtain ⟨z, hz, hrest⟩ := Passes.exists_split (u := [c]) hpass
      exact .head ((move_iff heat hx).2 ⟨c, hc, hz⟩) (ih (hz.text_eq hx) hw hrest)

end

/-! ### The first group and the match -/

namespace Slots

/-- The places that are noted up to the end of a first group. -/
def frontMarks (place start : Cursor) : Slots :=
  ((none.note 0 place).note 2 place).note 3 start

/-- The places that are noted up to the end of a match that begins with the first group. -/
def marks (place start stop : Cursor) : Slots :=
  (frontMarks place start).note 1 stop

end Slots

theorem Regex.report_marks {r : Regex} {place start stop : Cursor} (hgroups : r.groups = 1)
    (hle : place.offset ≤ stop.offset) :
    r.report (Slots.marks place start stop) =
      some ⟨⟨place, stop⟩, [some ⟨place, start⟩]⟩ := by
  have hspan : (Slots.marks place start stop).span? 0 = some ⟨place, stop⟩ := by
    rw [Slots.span?_eq_some]
    simp only [Slots.marks, Slots.frontMarks, Slots.get?_note]
    exact ⟨rfl, rfl⟩
  have hgroup : (Slots.marks place start stop).span? 1 = some ⟨place, start⟩ := by
    rw [Slots.span?_eq_some]
    simp only [Slots.marks, Slots.frontMarks, Slots.get?_note]
    exact ⟨rfl, rfl⟩
  have horder : ¬ stop.offset < place.offset := Nat.not_lt.2 hle
  simp [report, hspan, hgroup, hgroups, horder, List.range_succ]

/-- What a pattern finds is made of a match of its expression. -/
theorem Pattern.exists_search_of_find {p : Pattern} {here : Cursor} {m : PatternMatch}
    (h : p.find here = .ok (some m)) : ∃ found, p.regex.search here = .ok (some found) := by
  rw [find] at h
  split at h
  · cases h
  · cases h
  · rename_i found hsearch
    exact ⟨found, hsearch⟩

/-- The cut for look-behind leaves what comes behind the first group. -/
theorem Pattern.find_of_marks {p : Pattern} {here place start stop : Cursor} {u v : List Char}
    (hlook : p.lookbehind = true) (hgroups : p.regex.groups = 1) (hstart : Over u place start)
    (hstop : Over v start stop)
    (hsearch : p.regex.search here = .ok (p.regex.report (Slots.marks place start stop))) :
    ∃ m, p.find here = .ok (some m) ∧ m.span = ⟨start, stop⟩ := by
  have hle := hstart.offset_eq
  have hle' := hstop.offset_eq
  rw [Regex.report_marks hgroups (by omega)] at hsearch
  have horder : Span.InOrder ⟨place, stop⟩ place.text :=
    ⟨rfl, hstop.text_eq.trans hstart.text_eq, by dsimp only; omega⟩
  have htrim : Span.trim? ⟨place, stop⟩ (Span.length ⟨place, start⟩) = some ⟨start, stop⟩ :=
    Span.trim?_to horder hstart.text_eq (by dsimp only; omega) (by dsimp only; omega)
  refine ⟨⟨⟨start, stop⟩, [some ⟨place, start⟩]⟩, ?_, rfl⟩
  simp only [find, hsearch, hlook, htrim]

end SyntaxHue
