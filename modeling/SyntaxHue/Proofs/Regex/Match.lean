import Std.Data.TreeMap.Lemmas
import SyntaxHue.Proofs.Place
import SyntaxHue.Proofs.Regex.Backtrack
import SyntaxHue.Regex.Search

/-!
# Matches lie in the text

Programs move about in one text and note places of that text. A match is therefore a stretch of
the text that was searched, with its ends in order, whatever the expression is. Where it starts is
another matter: an expression can move its start to any place that it has seen.
-/

namespace SyntaxHue

namespace Slots

theorem get?_none (k : Nat) : none.get? k = Option.none := by
  simp [none]

theorem get?_note (s : Slots) (slot k : Nat) (c : Cursor) :
    (s.note slot c).get? k = if slot = k then some c else s.get? k := by
  simp [note, Std.TreeMap.getElem?_insert]

theorem get?_erase (s : Slots) (slot k : Nat) :
    (s.erase slot).get? k = if slot = k then Option.none else s.get? k := by
  simp [Std.TreeMap.getElem?_erase]

theorem span?_eq_some {s : Slots} {n : Nat} {span : Span} :
    s.span? n = some span ↔
      s.get? (2 * n) = some span.start ∧ s.get? (2 * n + 1) = some span.stop := by
  obtain ⟨start, stop⟩ := span
  simp [span?, Option.bind_eq_some_iff]

/-- Other groups are not touched when a group is taken over. -/
theorem get?_copyGroup_of_ne {t s : Slots} {n k : Nat} (hstart : 2 * n ≠ k)
    (hstop : 2 * n + 1 ≠ k) : (t.copyGroup s n).get? k = s.get? k := by
  cases hspan : t.span? n with
  | none => simp only [copyGroup, hspan, get?_erase, hstart, hstop, if_false]
  | some span => simp only [copyGroup, hspan, get?_note, hstart, hstop, if_false]

/-- The places of groups that are taken over come from one of both sides. -/
theorem get?_copyGroup {t s : Slots} {n k : Nat} {c : Cursor}
    (h : (t.copyGroup s n).get? k = some c) : t.get? k = some c ∨ s.get? k = some c := by
  by_cases hstart : 2 * n = k
  · subst hstart
    cases hspan : t.span? n with
    | none => simp [copyGroup, hspan] at h
    | some span =>
      simp only [copyGroup, hspan, get?_note] at h
      simp only [Nat.succ_ne_self, if_true, if_false, Option.some.injEq] at h
      exact .inl (h ▸ (span?_eq_some.1 hspan).1)
  · by_cases hstop : 2 * n + 1 = k
    · subst hstop
      cases hspan : t.span? n with
      | none => simp [copyGroup, hspan] at h
      | some span =>
        simp only [copyGroup, hspan, get?_note, if_true, Option.some.injEq] at h
        exact .inl (h ▸ (span?_eq_some.1 hspan).2)
    · exact .inr (get?_copyGroup_of_ne hstart hstop ▸ h)

theorem get?_copyGroups {t s : Slots} {groups : List Nat} {k : Nat} {c : Cursor}
    (h : (t.copyGroups groups s).get? k = some c) : t.get? k = some c ∨ s.get? k = some c := by
  induction groups generalizing s with
  | nil => exact .inr h
  | cons n groups ih =>
    rcases ih h with ht | hs
    · exact .inl ht
    · exact get?_copyGroup hs

end Slots

/-- A place in `text`, with groups whose places are in `text` too. -/
structure Regular.Outcome.InText (text : List Char) (x : Regular.Outcome) : Prop where
  here_text : x.here.text = text
  slots_text : ∀ k c, x.slots.get? k = some c → c.text = text

namespace Behaviour

/-- The behaviours that do not leave the text. -/
def KeepsText (a : Behaviour) : Prop :=
  ∀ text x y, a x y → x.InText text → y.InText text

theorem keepsText_skip : skip.KeepsText := by
  intro text x y h hx
  exact h ▸ hx

theorem keepsText_check (p : Regular.Outcome → Bool) : (check p).KeepsText := by
  intro text x y h hx
  exact h.2 ▸ hx

theorem keepsText_move {f : Cursor → Option Cursor}
    (hf : ∀ c d, f c = some d → d.text = c.text) : (move f).KeepsText := by
  rintro text x y ⟨there, hthere, rfl⟩ hx
  exact ⟨(hf _ _ hthere).trans hx.here_text, hx.slots_text⟩

theorem keepsText_note (slot : Nat) : (note slot).KeepsText := by
  rintro text x y rfl hx
  refine ⟨hx.here_text, ?_⟩
  intro k c hc
  simp only [Slots.get?_note] at hc
  split at hc
  · cases hc
    exact hx.here_text
  · exact hx.slots_text k c hc

variable {a b : Behaviour}

theorem KeepsText.seq (ha : a.KeepsText) (hb : b.KeepsText) : (a.seq b).KeepsText := by
  rintro text x z ⟨y, hxy, hyz⟩ hx
  exact hb text y z hyz (ha text x y hxy hx)

theorem KeepsText.alt (ha : a.KeepsText) (hb : b.KeepsText) : (a.alt b).KeepsText := by
  rintro text x y (h | h) hx
  · exact ha text x y h hx
  · exact hb text x y h hx

theorem KeepsText.group (n : Nat) (ha : a.KeepsText) : (group n a).KeepsText :=
  (keepsText_note _).seq (ha.seq (keepsText_note _))

theorem KeepsText.star (ha : a.KeepsText) : (star a).KeepsText := by
  intro text x y h hx
  induction h with
  | refl => exact hx
  | tail _ hstep ih => exact ha text _ _ hstep ih

end Behaviour

theorem Cursor.text_of_eat? {set : CharClass} {c d : Cursor} (h : c.eat? set = some d) :
    d.text = c.text := by
  unfold eat? at h
  split at h
  · rename_i x there hnext
    split at h
    · cases h
      exact text_of_next? hnext
    · simp at h
  · simp at h

theorem Cursor.text_of_eatBack? {set : CharClass} {c d : Cursor} (h : c.eatBack? set = some d) :
    d.text = c.text := by
  unfold eatBack? at h
  split at h
  · split at h
    · exact text_of_back? h
    · simp at h
  · simp at h

namespace Regular

theorem Reading.text_of_eat? {r : Reading} {set : CharClass} {c d : Cursor}
    (h : r.eat? set c = some d) : d.text = c.text := by
  unfold eat? at h
  split at h
  · exact Cursor.text_of_eatBack? h
  · split at h
    · exact Cursor.text_of_eat? h
    · simp at h

theorem keepsText_does (r : Reading) (e : Regular) : (e.does r).KeepsText := by
  induction e with
  | empty => exact Behaviour.keepsText_skip
  | one set => exact Behaviour.keepsText_move fun _ _ => Reading.text_of_eat?
  | assertion a => exact Behaviour.keepsText_check _
  | seq a b iha ihb => exact iha.seq ihb
  | alt _ a b iha ihb => exact iha.alt ihb
  | group n e ih => exact ih.group n
  | star _ _ e ih => exact ih.star

end Regular

theorem Slots.inText_none {text : List Char} {here : Cursor} (h : here.text = text) :
    Regular.Outcome.InText text ⟨here, Slots.none⟩ := by
  refine ⟨h, ?_⟩
  intro k c hc
  simp only [Slots.get?_none, reduceCtorEq] at hc

namespace Part

theorem does_of_first {p : Part} {bound : Nat} {here : Cursor} {o : Regular.Outcome}
    (h : p.first bound here = some o) :
    p.program.does ⟨false, bound⟩ ⟨here, Slots.none⟩ o :=
  Regular.does_of_run h

theorem does_of_firstBack {p : Part} {here : Cursor} {o : Regular.Outcome}
    (h : p.firstBack here = some o) : p.program.does ⟨true, 0⟩ ⟨here, Slots.none⟩ o :=
  Regular.does_of_run h

theorem inText_of_first {p : Part} {bound : Nat} {here : Cursor} {o : Regular.Outcome}
    (h : p.first bound here = some o) : o.InText here.text :=
  Regular.keepsText_does _ _ _ _ _ (does_of_first h) (Slots.inText_none rfl)

theorem inText_of_firstBack {p : Part} {here : Cursor} {o : Regular.Outcome}
    (h : p.firstBack here = some o) : o.InText here.text :=
  Regular.keepsText_does _ _ _ _ _ (does_of_firstBack h) (Slots.inText_none rfl)

/-- What a search finds starts at one of the places from `here` on. -/
theorem does_of_searchFrom {p : Part} {bound : Nat} {rest : List Char} {here : Cursor}
    {taken : Regular.Taken} {o : Regular.Outcome}
    (h : p.searchFrom bound rest here taken = some o) :
    ∃ place : Cursor, place.text = here.text ∧ here.offset ≤ place.offset ∧
      p.program.does ⟨false, bound⟩ ⟨place, Slots.none⟩ o := by
  induction rest generalizing here taken with
  | nil =>
    unfold searchFrom at h
    split at h
    · rename_i found taken' hrun
      cases h
      exact ⟨here, rfl, Nat.le_refl _, Regular.does_of_run (congrArg Prod.fst hrun)⟩
    · simp at h
  | cons c rest ih =>
    unfold searchFrom at h
    split at h
    · rename_i found taken' hrun
      cases h
      exact ⟨here, rfl, Nat.le_refl _, Regular.does_of_run (congrArg Prod.fst hrun)⟩
    · split at h
      · rename_i _ _ _ x there hcons hnext
        cases hcons
        obtain ⟨place, htext, hle, hdoes⟩ := ih h
        obtain ⟨htext', -, hoffset⟩ := Cursor.next?_eq_some hnext
        exact ⟨place, htext.trans htext', by omega, hdoes⟩
      · simp at h

theorem does_of_search {p : Part} {bytes : Nat} {here : Cursor} {o : Regular.Outcome}
    (h : p.search bytes here = some o) :
    ∃ place : Cursor, place.text = here.text ∧ here.offset ≤ place.offset ∧
      p.program.does ⟨false, bytes⟩ ⟨place, Slots.none⟩ o :=
  does_of_searchFrom h

end Part

theorem Slots.inText_copyGroups {text : List Char} {t s : Slots} {groups : List Nat}
    {here : Cursor} (hhere : here.text = text)
    (ht : ∀ k c, t.get? k = some c → c.text = text)
    (hs : ∀ k c, s.get? k = some c → c.text = text) :
    Regular.Outcome.InText text ⟨here, t.copyGroups groups s⟩ := by
  refine ⟨hhere, ?_⟩
  intro k c hc
  rcases Slots.get?_copyGroups hc with hc | hc
  · exact ht k c hc
  · exact hs k c hc

namespace Backtracking

theorem text_of_eatAgain? {again : List Char} {anyCase : Bool} {c d : Cursor}
    (h : eatAgain? again anyCase c = some d) : d.text = c.text := by
  simp only [eatAgain?] at h
  split at h
  · split at h
    · cases h
      exact c.forward_text _
    · simp at h
  · simp at h

variable {ctx : Context}

theorem keepsText_does (e : Program) : (e.does ctx).KeepsText := by
  induction e with
  | empty => exact Behaviour.keepsText_skip
  | refuse e => exact Behaviour.keepsText_skip
  | one set => exact Behaviour.keepsText_move fun _ _ => Cursor.text_of_eat?
  | assertion a => exact Behaviour.keepsText_check _
  | part p =>
    rintro text x y ⟨o, hfirst, rfl⟩ hx
    have ho := Part.inText_of_first hfirst
    rw [hx.here_text] at ho
    exact Slots.inText_copyGroups ho.here_text ho.slots_text hx.slots_text
  | seq a b iha ihb => exact iha.seq ihb
  | alt a b iha ihb => exact iha.alt ihb
  | group n e ih => exact ih.group n
  | star _ e ih => exact ih.star
  | times _ _ _ e ih => exact ih.star
  | passes _ _ e ih => exact ih.star
  | atomic e ih => exact ih
  | stay e ih =>
    rintro text x y ⟨z, hz, rfl⟩ hx
    exact ⟨hx.here_text, (ih text x z hz hx).slots_text⟩
  | back width => exact Behaviour.keepsText_move fun _ _ => Cursor.text_of_backBy?
  | backOver p ahead =>
    rintro text x y ⟨o, hback, hy⟩ hx
    have ho := Part.inText_of_firstBack hback
    rw [hx.here_text] at ho
    cases ahead with
    | none =>
      cases hy
      exact ⟨ho.here_text, hx.slots_text⟩
    | some ahead =>
      obtain ⟨found, hfirst, rfl⟩ := hy
      have hfound := Part.inText_of_first hfirst
      rw [ho.here_text] at hfound
      exact Slots.inText_copyGroups ho.here_text hfound.slots_text hx.slots_text
  | backref n anyCase =>
    rintro text x y ⟨s, there, -, hthere, rfl⟩ hx
    exact ⟨(text_of_eatAgain? hthere).trans hx.here_text, hx.slots_text⟩
  | keepOut => exact Behaviour.keepsText_note 0
  | searchStart => exact Behaviour.keepsText_check _
  | isSet n => exact Behaviour.keepsText_check _
  | cond test yes no iht ihy ihn => exact (iht.seq ihy).alt ihn

/-- What a run of one program finds is what the program does. -/
theorem does_of_run {fuel budget depth left : Nat} {e : Program} {start here : Cursor}
    {slots : Slots}
    (h : run ctx fuel budget depth ⟨[.run e], start, .none, []⟩ [] = (.found here slots, left)) :
    e.does ctx ⟨start, .none⟩ ⟨here, slots⟩ := by
  obtain ⟨t, ht, hends⟩ := ends_of_run h
  cases List.mem_singleton.1 ht
  obtain ⟨y, hdoes, hskip⟩ := hends
  cases hskip
  exact hdoes

/-- What a search finds starts at one of the places from `start` on. -/
theorem does_of_search {fuel budget : Nat} {e : Program} {rest : List Char} {start here : Cursor}
    {slots : Slots} (h : search ctx fuel e budget rest start = .found here slots) :
    ∃ place : Cursor, place.text = start.text ∧ start.offset ≤ place.offset ∧
      e.does ctx ⟨place, .none⟩ ⟨here, slots⟩ := by
  induction rest generalizing start budget with
  | nil =>
    unfold search at h
    split at h
    · split at h <;> simp_all
    · rename_i result left hfailed hrun
      subst h
      exact ⟨start, rfl, Nat.le_refl _, does_of_run hrun⟩
  | cons c rest ih =>
    unfold search at h
    split at h
    · split at h
      · simp at h
      · rename_i x there hcons hnext hfailed
        cases hcons
        obtain ⟨place, htext, hle, hdoes⟩ := ih h
        obtain ⟨htext', -, hoffset⟩ := Cursor.next?_eq_some hnext
        exact ⟨place, htext.trans htext', by omega, hdoes⟩
      · simp at h
    · rename_i result left hfailed hrun
      subst h
      exact ⟨start, rfl, Nat.le_refl _, does_of_run hrun⟩

end Backtracking

namespace Regex

/-- What the program of a search does. The search begins at offset `origin` of a text of `bytes`
    bytes. -/
def does (r : Regex) (origin bytes : Nat) : Behaviour :=
  match r.matcher with
  | .regular p => p.program.does ⟨false, bytes⟩
  | .backtracking e => e.does ⟨origin, bytes⟩

theorem keepsText_does (r : Regex) (origin bytes : Nat) : (r.does origin bytes).KeepsText := by
  obtain ⟨matcher, groups⟩ := r
  cases matcher with
  | regular p => exact Regular.keepsText_does _ _
  | backtracking e => exact Backtracking.keepsText_does e

/-- What a search reports is what its program does at one of the places from `here` on. -/
theorem does_of_search {r : Regex} {here : Cursor} {m : Match}
    (h : r.search here = .ok (some m)) :
    ∃ (place : Cursor) (o : Regular.Outcome), place.text = here.text ∧
      here.offset ≤ place.offset ∧
      r.does here.offset (byteLength here.text) ⟨place, .none⟩ o ∧ r.report o.slots = some m := by
  obtain ⟨matcher, groups⟩ := r
  simp only [search, searchWithin, here.offset_add_byteLength] at h
  cases matcher with
  | regular p =>
    simp only [Except.ok.injEq, Option.bind_eq_some_iff] at h
    obtain ⟨o, hsearch, hreport⟩ := h
    obtain ⟨place, htext, hle, hdoes⟩ := Part.does_of_search hsearch
    exact ⟨place, o, htext, hle, hdoes, hreport⟩
  | backtracking e =>
    simp only at h
    split at h
    · rename_i there slots hsearch
      simp only [Except.ok.injEq] at h
      obtain ⟨place, htext, hle, hdoes⟩ := Backtracking.does_of_search hsearch
      exact ⟨place, ⟨there, slots⟩, htext, hle, hdoes, h⟩
    · simp at h
    · simp at h
    · simp at h

/-- The ends of a match that is reported from places of a text. -/
theorem inOrder_of_report {r : Regex} {text : List Char} {o : Regular.Outcome} {m : Match}
    (ho : o.InText text) (h : r.report o.slots = some m) : m.span.InOrder text := by
  obtain ⟨span, hspan, rfl⟩ := Option.map_eq_some_iff.1 h
  obtain ⟨hstart, hstop⟩ := Slots.span?_eq_some.1 hspan
  refine ⟨?_, ho.slots_text _ _ hstop, ?_⟩
  · dsimp only
    split
    · exact ho.slots_text _ _ hstop
    · exact ho.slots_text _ _ hstart
  · dsimp only
    split
    · exact Nat.le_refl _
    · omega

/-- A match is a stretch of the text that was searched. -/
theorem inOrder_of_search {r : Regex} {here : Cursor} {m : Match}
    (h : r.search here = .ok (some m)) : m.span.InOrder here.text := by
  obtain ⟨place, o, htext, -, hdoes, hreport⟩ := does_of_search h
  exact inOrder_of_report (keepsText_does r _ _ _ _ _ hdoes (Slots.inText_none htext)) hreport

end Regex

end SyntaxHue
