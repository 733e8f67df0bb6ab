import SyntaxHue.Json.Value
import SyntaxHue.Proofs.Json.Lexeme

/-!
# Reading values

A text of a value is a text of its row of lexemes. Whatever its white space and however its strings
are written, it is read as that value and no other one, unless it is too deep or has a number that
is too large. In these cases nothing is read.
-/

namespace SyntaxHue

open Json (Lexeme)

mutual

/-- The lexemes of a value. -/
def Datum.lexemes : Datum → List Lexeme
  | .text s => [.text s]
  | .list [] => [.openList, .closeList]
  | .list (item :: items) =>
    .openList :: (item.lexemes ++ (Datum.moreLexemes items ++ [.closeList]))
  | .record [] => [.openRecord, .closeRecord]
  | .record (field :: fields) =>
    .openRecord :: (field.lexemes ++ (Field.moreLexemes fields ++ [.closeRecord]))
  | .null => [.scalar .null]
  | .bool b => [.scalar (.bool b)]
  | .natural n => [.scalar (.natural n)]
  | .number written => [.scalar (.number written)]

/-- The lexemes of items behind the first one. -/
def Datum.moreLexemes : List Datum → List Lexeme
  | [] => []
  | item :: items => .comma :: (item.lexemes ++ Datum.moreLexemes items)

/-- The lexemes of a field. -/
def Field.lexemes : Field → List Lexeme
  | .mk key value => key.lexemes ++ .colon :: value.lexemes

/-- The lexemes of fields behind the first one. -/
def Field.moreLexemes : List Field → List Lexeme
  | [] => []
  | field :: fields => .comma :: (field.lexemes ++ Field.moreLexemes fields)

end

mutual

/-- How deep lists and records are in a value. -/
def Datum.depth : Datum → Nat
  | .list items => Datum.depthOf items + 1
  | .record fields => Field.depthOf fields + 1
  | _ => 0

/-- How deep the deepest item is. -/
def Datum.depthOf : List Datum → Nat
  | [] => 0
  | item :: items => max item.depth (Datum.depthOf items)

/-- How deep the deepest value of a field is. -/
def Field.depthOf : List Field → Nat
  | [] => 0
  | .mk _ value :: fields => max value.depth (Field.depthOf fields)

end

mutual

/-- All keys in a value are texts. -/
def Datum.Keyed : Datum → Prop
  | .list items => Datum.AllKeyed items
  | .record fields => Field.AllKeyed fields
  | _ => True

/-- All keys in items are texts. -/
def Datum.AllKeyed : List Datum → Prop
  | [] => True
  | item :: items => item.Keyed ∧ Datum.AllKeyed items

/-- All keys of fields, and in their values, are texts. -/
def Field.AllKeyed : List Field → Prop
  | [] => True
  | .mk key value :: fields => (∃ name, key = .text name) ∧ value.Keyed ∧ Field.AllKeyed fields

end

namespace Json

/-- A text of a value. -/
def IsText (v : Datum) (cs : List Char) : Prop :=
  v.Keyed ∧ Writes v.lexemes cs

namespace State

variable {limit : Nat}

/-- A list that was just opened is not closed by the first lexeme of a value. -/
theorem run_firstItem (v : Datum) (frames : List Frame) (xs : List Lexeme) :
    run limit ⟨frames, .firstItem⟩ (v.lexemes ++ xs) =
      run limit ⟨frames, .value⟩ (v.lexemes ++ xs) := by
  match v with
  | .null | .bool _ | .natural _ | .number _ | .text _ | .list [] | .list (_ :: _) | .record []
  | .record (_ :: _) => rfl

theorem run_enter (frames : List Frame) (frame : Frame) (expected : Expected) (xs : List Lexeme) :
    (enter limit frames frame expected).bind (run limit · xs) =
      if frames.length + 1 ≤ limit then run limit ⟨frame :: frames, expected⟩ xs else none := by
  by_cases hroom : frames.length < limit
  · rw [enter, if_pos hroom, if_pos (Nat.succ_le_of_lt hroom), Option.bind_some]
  · rw [enter, if_neg hroom, if_neg (mt Nat.lt_of_succ_le hroom), Option.bind_none]

/-- There is room for all parts of a value if there is for each of them. -/
theorem ite_room {α : Type} (n a b : Nat) (x : Option α) :
    (if n + a ≤ limit then if n + b ≤ limit then x else none else none) =
      if n + max a b ≤ limit then x else none := by
  by_cases ha : n + a ≤ limit
  · by_cases hb : n + b ≤ limit
    · rw [if_pos ha, if_pos hb, if_pos (by omega)]
    · rw [if_pos ha, if_neg hb, if_neg (by omega)]
  · rw [if_neg ha, if_neg (by omega)]

mutual

/-- Where a value may stand, the lexemes of a value are read as that value, if there is room for
    the lists and records in it. -/
theorem run_value (v : Datum) (h : v.Keyed) (frames : List Frame) (hroom : frames.length ≤ limit)
    (xs : List Lexeme) :
    run limit ⟨frames, .value⟩ (v.lexemes ++ xs) =
      if frames.length + v.depth ≤ limit then run limit (place v frames) xs else none := by
  match v with
  | .null | .bool _ | .natural _ | .number _ | .text _ => exact (if_pos hroom).symm
  | .list [] => exact run_enter _ _ _ _
  | .list (item :: items) =>
    obtain ⟨hitem, hitems⟩ := h
    have hopen : run limit ⟨frames, .value⟩ ((Datum.list (item :: items)).lexemes ++ xs) =
        if frames.length + 1 ≤ limit then run limit ⟨.list [] :: frames, .firstItem⟩
          (item.lexemes ++ (Datum.moreLexemes items ++ .closeList :: xs)) else none := by
      rw [← run_enter, Datum.lexemes]
      simp only [List.cons_append, List.append_assoc, List.nil_append]
      rfl
    -- the list is one frame more for everything in it
    have hdepth : frames.length + (Datum.list (item :: items)).depth =
        frames.length + 1 + max item.depth (Datum.depthOf items) := by
      rw [Datum.depth, Datum.depthOf, Nat.add_right_comm, Nat.add_assoc]
    rw [hopen, hdepth]
    split
    · next hroom' =>
      have hplace : place item (.list [] :: frames) = ⟨.list [item] :: frames, .more⟩ := rfl
      rw [run_firstItem, run_value item hitem (.list [] :: frames) hroom', hplace,
        run_moreItems items hitems [item] frames hroom']
      exact ite_room _ _ _ _
    · exact (if_neg (by omega)).symm
  | .record [] => exact run_enter _ _ _ _
  | .record (.mk key value :: fields) =>
    obtain ⟨⟨name, rfl⟩, hvalue, hfields⟩ := h
    have hopen : run limit ⟨frames, .value⟩
        ((Datum.record (.mk (.text name) value :: fields)).lexemes ++ xs) =
        if frames.length + 1 ≤ limit then run limit ⟨.record [] name :: frames, .value⟩
          (value.lexemes ++ (Field.moreLexemes fields ++ .closeRecord :: xs)) else none := by
      -- the key and the colon have no choice
      have hfield : run limit ⟨.record [] name :: frames, .value⟩
          (value.lexemes ++ (Field.moreLexemes fields ++ .closeRecord :: xs)) =
          run limit ⟨.record [] "" :: frames, .firstKey⟩ (.text name :: .colon ::
            (value.lexemes ++ (Field.moreLexemes fields ++ .closeRecord :: xs))) := rfl
      rw [hfield, ← run_enter, Datum.lexemes, Field.lexemes, Datum.lexemes]
      simp only [List.cons_append, List.append_assoc, List.nil_append]
      rfl
    have hdepth : frames.length + (Datum.record (.mk (.text name) value :: fields)).depth =
        frames.length + 1 + max value.depth (Field.depthOf fields) := by
      rw [Datum.depth, Field.depthOf, Nat.add_right_comm, Nat.add_assoc]
    rw [hopen, hdepth]
    split
    · next hroom' =>
      have hplace : place value (.record [] name :: frames) =
          ⟨.record [.mk (.text name) value] "" :: frames, .more⟩ := rfl
      rw [run_value value hvalue (.record [] name :: frames) hroom', hplace,
        run_moreFields fields hfields [.mk (.text name) value] frames hroom']
      exact ite_room _ _ _ _
    · exact (if_neg (by omega)).symm

/-- Behind an item, further items are read up to the end of the list. -/
theorem run_moreItems (items : List Datum) (h : Datum.AllKeyed items) (acc : List Datum)
    (frames : List Frame) (hroom : frames.length + 1 ≤ limit) (xs : List Lexeme) :
    run limit ⟨.list acc :: frames, .more⟩ (Datum.moreLexemes items ++ .closeList :: xs) =
      if frames.length + 1 + Datum.depthOf items ≤ limit then
        run limit (place (.list (acc.reverse ++ items)) frames) xs
      else none := by
  match items with
  | [] =>
    rw [Datum.depthOf, if_pos hroom, List.append_nil]
    rfl
  | item :: items =>
    obtain ⟨hitem, hitems⟩ := h
    have hcomma : run limit ⟨.list acc :: frames, .more⟩
        (Datum.moreLexemes (item :: items) ++ .closeList :: xs) =
        run limit ⟨.list acc :: frames, .value⟩
          (item.lexemes ++ (Datum.moreLexemes items ++ .closeList :: xs)) := by
      rw [Datum.moreLexemes, List.cons_append, List.append_assoc]
      rfl
    have hplace : place item (.list acc :: frames) = ⟨.list (item :: acc) :: frames, .more⟩ := rfl
    rw [hcomma, run_value item hitem (.list acc :: frames) hroom, hplace,
      run_moreItems items hitems (item :: acc) frames hroom, Datum.depthOf, List.reverse_cons,
      List.append_assoc, List.singleton_append]
    exact ite_room _ _ _ _

/-- Behind a field, further fields are read up to the end of the record. -/
theorem run_moreFields (fields : List Field) (h : Field.AllKeyed fields) (acc : List Field)
    (frames : List Frame) (hroom : frames.length + 1 ≤ limit) (xs : List Lexeme) :
    run limit ⟨.record acc "" :: frames, .more⟩ (Field.moreLexemes fields ++ .closeRecord :: xs) =
      if frames.length + 1 + Field.depthOf fields ≤ limit then
        run limit (place (.record (acc.reverse ++ fields)) frames) xs
      else none := by
  match fields with
  | [] =>
    rw [Field.depthOf, if_pos hroom, List.append_nil]
    rfl
  | .mk key value :: fields =>
    obtain ⟨⟨name, rfl⟩, hvalue, hfields⟩ := h
    have hcomma : run limit ⟨.record acc "" :: frames, .more⟩
        (Field.moreLexemes (.mk (.text name) value :: fields) ++ .closeRecord :: xs) =
        run limit ⟨.record acc name :: frames, .value⟩
          (value.lexemes ++ (Field.moreLexemes fields ++ .closeRecord :: xs)) := by
      rw [Field.moreLexemes, Field.lexemes, Datum.lexemes]
      simp only [List.cons_append, List.append_assoc, List.nil_append]
      rfl
    have hplace : place value (.record acc name :: frames) =
        ⟨.record (.mk (.text name) value :: acc) "" :: frames, .more⟩ := rfl
    rw [hcomma, run_value value hvalue (.record acc name :: frames) hroom, hplace,
      run_moreFields fields hfields (.mk (.text name) value :: acc) frames hroom, Field.depthOf,
      List.reverse_cons, List.append_assoc, List.singleton_append]
    exact ite_room _ _ _ _

end

end State

section

variable {P : Lexeme → Prop}

/-- What holds of all lexemes of the items, and of those that keep them apart, holds of all lexemes
    of a list. -/
theorem forall_lexemes_list (hopen : P .openList) (hcomma : P .comma) (hclose : P .closeList)
    {items : List Datum} (h : ∀ item ∈ items, ∀ x ∈ item.lexemes, P x) :
    ∀ x ∈ (Datum.list items).lexemes, P x := by
  have hmore : ∀ others : List Datum, (∀ item ∈ others, ∀ x ∈ item.lexemes, P x) →
      ∀ x ∈ Datum.moreLexemes others, P x := by
    intro others hothers
    induction others with
    | nil => simp [Datum.moreLexemes]
    | cons item others ih =>
      rw [List.forall_mem_cons] at hothers
      simp only [Datum.moreLexemes, List.forall_mem_cons, List.forall_mem_append]
      exact ⟨hcomma, hothers.1, ih hothers.2⟩
  cases items with
  | nil =>
    simp only [Datum.lexemes, List.forall_mem_cons]
    exact ⟨hopen, hclose, List.forall_mem_nil _⟩
  | cons item items =>
    rw [List.forall_mem_cons] at h
    simp only [Datum.lexemes, List.forall_mem_cons, List.forall_mem_append]
    exact ⟨hopen, h.1, hmore items h.2, hclose, List.forall_mem_nil _⟩

/-- What holds of all lexemes of the fields, and of those that keep them apart, holds of all
    lexemes of a record. -/
theorem forall_lexemes_record (hopen : P .openRecord) (hcomma : P .comma) (hcolon : P .colon)
    (hclose : P .closeRecord) {fields : List Field}
    (h : ∀ f ∈ fields, (∀ x ∈ f.key.lexemes, P x) ∧ ∀ x ∈ f.value.lexemes, P x) :
    ∀ x ∈ (Datum.record fields).lexemes, P x := by
  have hfield : ∀ f : Field, (∀ x ∈ f.key.lexemes, P x) ∧ (∀ x ∈ f.value.lexemes, P x) →
      ∀ x ∈ f.lexemes, P x := by
    rintro ⟨key, value⟩ ⟨hkey, hvalue⟩
    simp only [Field.lexemes, List.forall_mem_cons, List.forall_mem_append]
    exact ⟨hkey, hcolon, hvalue⟩
  have hmore : ∀ others : List Field,
      (∀ f ∈ others, (∀ x ∈ f.key.lexemes, P x) ∧ ∀ x ∈ f.value.lexemes, P x) →
      ∀ x ∈ Field.moreLexemes others, P x := by
    intro others hothers
    induction others with
    | nil => simp [Field.moreLexemes]
    | cons f others ih =>
      rw [List.forall_mem_cons] at hothers
      simp only [Field.moreLexemes, List.forall_mem_cons, List.forall_mem_append]
      exact ⟨hcomma, hfield f hothers.1, ih hothers.2⟩
  cases fields with
  | nil =>
    simp only [Datum.lexemes, List.forall_mem_cons]
    exact ⟨hopen, hclose, List.forall_mem_nil _⟩
  | cons f fields =>
    rw [List.forall_mem_cons] at h
    simp only [Datum.lexemes, List.forall_mem_cons, List.forall_mem_append]
    exact ⟨hopen, hfield f h.1, hmore fields h.2, hclose, List.forall_mem_nil _⟩

end

/-- No number in a value is too large, or may be. -/
def Light (v : Datum) : Prop :=
  ∀ x ∈ v.lexemes, ¬ x.Heavy

theorem light_null : Light .null := by
  simp [Light, Datum.lexemes, Lexeme.Heavy]

theorem light_bool (b : Bool) : Light (.bool b) := by
  simp [Light, Datum.lexemes, Lexeme.Heavy]

theorem light_text (s : String) : Light (.text s) := by
  simp [Light, Datum.lexemes, Lexeme.Heavy]

theorem light_list {items : List Datum} (h : ∀ item ∈ items, Light item) :
    Light (.list items) :=
  forall_lexemes_list id id id h

theorem light_record {fields : List Field} (h : ∀ f ∈ fields, Light f.key ∧ Light f.value) :
    Light (.record fields) :=
  forall_lexemes_record id id id id h

/-- A text of a value is read as that value, or not at all if it is too deep or has a number in it
    that is too large. -/
theorem IsText.read {v : Datum} {cs : List Char} (h : IsText v cs) :
    read cs = some v ∨ ¬ (v.depth ≤ depthLimit ∧ Light v) ∧ read cs = none := by
  obtain ⟨hkeyed, hwrites⟩ := h
  have hrun := State.run_value v hkeyed [] (Nat.zero_le depthLimit) []
  rw [List.append_nil, List.length_nil, Nat.zero_add] at hrun
  rcases hwrites.scan with hscan | ⟨⟨x, hx, hheavy⟩, hscan⟩
  · have hread : Json.read cs =
        (State.initial.run depthLimit v.lexemes).bind State.result? := by
      rw [Json.read, readWithin, hscan]
      rfl
    rw [hread, State.initial, hrun]
    by_cases hdepth : v.depth ≤ depthLimit
    · left
      rw [if_pos hdepth]
      rfl
    · right
      rw [if_neg hdepth]
      exact ⟨fun hlimits => hdepth hlimits.1, rfl⟩
  · right
    rw [Json.read, readWithin, hscan]
    exact ⟨fun hlimits => hlimits.2 x hx hheavy, rfl⟩

end Json

end SyntaxHue
