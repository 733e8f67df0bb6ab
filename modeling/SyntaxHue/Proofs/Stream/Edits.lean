import SyntaxHue.Proofs.Stream.Holds

/-!
# A stream refines a list

A stream is edited behind its head or behind a linked cell. What such edits make of a plain list of
values says all about the stream: its values, its length, its links, and the answers of the edits.
A cell that a removal unlinks is left as it is by that removal and by all later edits.
-/

namespace SyntaxHue

namespace TokenStream

/-- A call that changes a stream behind a cell. -/
inductive Edit where
  | insert (cell : Nat) (value : Node)
  | remove (cell count : Nat)

namespace Edit

/-- The cell behind which an edit takes place. -/
def cell : Edit → Nat
  | insert cell _ => cell
  | remove cell _ => cell

/-- The answer of an edit and the stream after it. An insertion answers with the new cell, a
    removal with the number of values it removed. -/
def apply (s : TokenStream) : Edit → Nat × TokenStream
  | insert cell value => s.insertAfter cell value
  | remove cell count => s.removeAfter cell count

end Edit

/-- The stream after some edits. -/
def after (s : TokenStream) (edits : List Edit) : TokenStream :=
  edits.foldl (fun s edit => (edit.apply s).2) s

/-- A list of values that are known by their cells. The cells are numbered as they come. -/
structure Listing where
  entries : List Entry
  fresh : Nat

namespace Listing

/-- The list without values. The cells of a stream without values are its head and its tail. -/
def empty : Listing :=
  ⟨[], 2⟩

def cells (l : Listing) : List Nat :=
  cellsOf l.entries

def values (l : Listing) : List Node :=
  valuesOf l.entries

/-- The number of values up to a cell. -/
def place (l : Listing) (cell : Nat) : Nat :=
  (head :: l.cells).idxOf cell

/-- The answer of an edit of a list and the list after it. -/
def edit (l : Listing) : Edit → Nat × Listing
  | .insert cell value =>
    let front := l.entries.take (l.place cell)
    let back := l.entries.drop (l.place cell)
    (l.fresh, ⟨front ++ (l.fresh, value) :: back, l.fresh + 1⟩)
  | .remove cell count =>
    let front := l.entries.take (l.place cell)
    let back := l.entries.drop (l.place cell)
    (min count back.length, ⟨front ++ back.drop count, l.fresh⟩)

/-- The list after some edits. -/
def after (l : Listing) (edits : List Edit) : Listing :=
  edits.foldl (fun l edit => (l.edit edit).2) l

/-- Every edit takes place behind the head or behind a cell that is linked by then. -/
def Allows (l : Listing) : List Edit → Prop
  | [] => True
  | edit :: edits => edit.cell ∈ head :: l.cells ∧ (l.edit edit).2.Allows edits

instance decidableAllows : (l : Listing) → (edits : List Edit) → Decidable (l.Allows edits)
  | _, [] => instDecidableTrue
  | l, edit :: edits =>
    have := decidableAllows (l.edit edit).2 edits
    inferInstanceAs (Decidable (_ ∧ _))

end Listing

/-- The neighbours `k` and `m` of a stream lead to each other. -/
def Adjacent (s : TokenStream) (k m : Nat) : Prop :=
  s.next k = m ∧ s.prev m = k

/-- All that a stream can be asked for is as the list `l` says. -/
structure Shows (s : TokenStream) (l : Listing) : Prop where
  values : s.values = l.values
  toList : s.toList = l.values
  len : s.len.toNat = l.entries.length % UInt64.size
  neighbours : List.IsChain s.Adjacent (head :: (l.cells ++ [tail]))
  value : ∀ entry ∈ l.entries, s.value? entry.1 = some entry.2
  head_value : s.value? head = none
  tail_value : s.value? tail = none

/-- The stream `s` holds the list `l` and gives its next cell the same number. -/
structure Refines (s : TokenStream) (l : Listing) : Prop where
  holds : s.Holds l.entries
  fresh : s.cells.size = l.fresh

variable {s t : TokenStream} {l : Listing} {edit : Edit} {edits rest : List Edit} {id : Nat}

theorem refines_empty : empty.Refines .empty where
  holds := holds_empty
  fresh := rfl

theorem Path.isChain {path : List Nat} (h : s.Path id path) :
    List.IsChain s.Adjacent (id :: path) := by
  induction path generalizing id with
  | nil => exact .singleton id
  | cons k path ih => exact .cons_cons ⟨h.1, h.2.1⟩ (ih h.2.2)

theorem Refines.shows (h : s.Refines l) : s.Shows l where
  values := h.holds.values_eq
  toList := h.holds.toList_eq
  len := by
    rw [h.holds.len_eq]
    exact UInt64.toNat_ofNat'
  neighbours := h.holds.path.isChain
  value := h.holds.value
  head_value := h.holds.head_value
  tail_value := h.holds.tail_value

theorem getLastD_take_idxOf {ids : List Nat} {first : Nat} (hid : id ∈ first :: ids) :
    (ids.take ((first :: ids).idxOf id)).getLastD first = id := by
  induction ids generalizing first with
  | nil =>
    rw [List.mem_singleton] at hid
    rw [hid, List.take_nil, List.getLastD_nil]
  | cons k ids ih =>
    by_cases hfirst : first = id
    · rw [hfirst, List.idxOf_cons_self, List.take_zero, List.getLastD_nil]
    · rw [List.idxOf_cons_ne _ hfirst, List.take_succ_cons, List.getLastD_cons]
      exact ih (List.mem_of_ne_of_mem (Ne.symm hfirst) hid)

/-- The values up to a linked cell end with the value of that cell. -/
theorem Listing.lastOf_take_place (hid : id ∈ head :: l.cells) :
    lastOf (l.entries.take (l.place id)) = id := by
  rw [lastOf, cellsOf, List.map_take]
  exact getLastD_take_idxOf hid

/-! ### One edit -/

/-- An edit answers for a stream what it answers for the list, and makes the same of both. -/
theorem Refines.step (h : s.Refines l) (hcell : edit.cell ∈ head :: l.cells) :
    (edit.apply s).1 = (l.edit edit).1 ∧ (edit.apply s).2.Refines (l.edit edit).2 := by
  have hlast := Listing.lastOf_take_place hcell
  have hholds := h.holds
  rw [← List.take_append_drop (l.place edit.cell) l.entries] at hholds
  cases edit with
  | insert cell value =>
    have hinsert := hholds.insertAfter value
    rw [hlast, h.fresh] at hinsert
    exact ⟨h.fresh, hinsert, by rw [Edit.apply, size_insertAfter, h.fresh]; rfl⟩
  | remove cell count =>
    have hremove := hholds.removeAfter count
    have hremoved := hholds.removed_eq count
    rw [hlast] at hremove hremoved
    exact ⟨hremoved, hremove, by rw [Edit.apply, size_removeAfter, h.fresh]; rfl⟩

/-- An edit leaves all cells alone that are not linked after it. -/
theorem Refines.keep_step (h : s.Refines l) (hcell : edit.cell ∈ head :: l.cells)
    (hid : id < s.cells.size) (hnot : id ∉ head :: ((l.edit edit).2.cells ++ [tail])) :
    (edit.apply s).2.cells[id]? = s.cells[id]? := by
  have hlast := Listing.lastOf_take_place hcell
  have hholds := h.holds
  rw [← List.take_append_drop (l.place edit.cell) l.entries] at hholds
  have hfront := lastOf_mem (l.entries.take (l.place edit.cell))
  cases edit with
  | insert cell value =>
    have hback := firstOf_mem (l.entries.drop (l.place cell))
    have hkeep := hholds.keep_insertAfter value hid
    rw [Listing.edit, Listing.cells, cellsOf_append, cellsOf_cons] at hnot
    rw [hlast] at hkeep hfront
    rw [List.append_assoc, ← List.cons_append, List.mem_append, not_or] at hnot
    refine hkeep ?_ ?_
    · rintro rfl
      exact hnot.1 hfront
    · rintro rfl
      exact hnot.2 (List.mem_cons_of_mem _ hback)
  | remove cell count =>
    have hback := firstOf_mem ((l.entries.drop (l.place cell)).drop count)
    have hkeep := hholds.keep_removeAfter (k := id) count
    rw [Listing.edit, Listing.cells, cellsOf_append] at hnot
    rw [hlast] at hkeep hfront
    rw [List.append_assoc, ← List.cons_append, List.mem_append, not_or] at hnot
    refine hkeep ?_ ?_
    · rintro rfl
      exact hnot.1 hfront
    · rintro rfl
      exact hnot.2 hback

/-! ### Many edits -/

theorem after_cons : s.after (edit :: edits) = (edit.apply s).2.after edits := rfl

theorem after_append : s.after (edits ++ rest) = (s.after edits).after rest :=
  List.foldl_append

namespace Listing

theorem after_cons : l.after (edit :: edits) = (l.edit edit).2.after edits := rfl

theorem after_append : l.after (edits ++ rest) = (l.after edits).after rest :=
  List.foldl_append

theorem allows_append : l.Allows (edits ++ rest) ↔ l.Allows edits ∧ (l.after edits).Allows rest := by
  induction edits generalizing l with
  | nil => exact ⟨fun h => ⟨trivial, h⟩, fun h => h.2⟩
  | cons edit edits ih => rw [List.cons_append, Allows, Allows, ih, after_cons, and_assoc]

end Listing

theorem Refines.after (h : s.Refines l) (hedits : l.Allows edits) :
    (s.after edits).Refines (l.after edits) := by
  induction edits generalizing s l with
  | nil => exact h
  | cons edit edits ih => exact ih (h.step hedits.1).2 hedits.2

theorem size_le_apply : s.cells.size ≤ (edit.apply s).2.cells.size := by
  cases edit with
  | insert cell value =>
    rw [Edit.apply, size_insertAfter]
    exact Nat.le_succ _
  | remove cell count =>
    exact Nat.le_of_eq size_removeAfter.symm

/-- A cell that an edit does not link stays as it is. -/
theorem Listing.mem_of_mem_edit (hlt : id < l.fresh) (hid : id ∈ (l.edit edit).2.cells) :
    id ∈ l.cells := by
  cases edit with
  | insert cell value =>
    rw [edit, cells, cellsOf_append, cellsOf_cons, List.mem_append, List.mem_cons] at hid
    rw [cells, ← List.take_append_drop (l.place cell) l.entries, cellsOf_append, List.mem_append]
    rcases hid with hfront | rfl | hback
    · exact Or.inl hfront
    · exact absurd hlt (Nat.lt_irrefl _)
    · exact Or.inr hback
  | remove cell count =>
    rw [edit, cells, cellsOf_append, List.mem_append] at hid
    rw [cells, ← List.take_append_drop (l.place cell) l.entries, cellsOf_append, List.mem_append]
    refine hid.imp_right fun hback => ?_
    rw [cellsOf_drop] at hback
    exact List.mem_of_mem_drop hback

/-- Edits leave a cell alone that is not linked. -/
theorem Refines.keep_after (h : s.Refines l) (hedits : l.Allows edits) (hid : id < s.cells.size)
    (hnot : id ∉ head :: (l.cells ++ [tail])) : (s.after edits).cells[id]? = s.cells[id]? := by
  induction edits generalizing s l with
  | nil => rfl
  | cons edit edits ih =>
    have hstill : id ∉ head :: ((l.edit edit).2.cells ++ [tail]) := by
      intro hmem
      rw [List.mem_cons, List.mem_append] at hmem hnot
      refine hnot (hmem.imp_right (Or.imp_left fun hcell => ?_))
      rw [h.fresh] at hid
      exact Listing.mem_of_mem_edit hid hcell
    have hstep := h.keep_step hedits.1 hid hstill
    rw [after_cons, ih (h.step hedits.1).2 hedits.2 (Nat.lt_of_lt_of_le hid size_le_apply) hstill,
      hstep]

/-- A stream that is edited behind its head and behind linked cells refines a list: after every
    edit it shows that list, the edits answer what they answer for the list, and a cell that an
    edit unlinks stays as it was before that edit. -/
theorem after_refines (edits : List Edit) (hedits : Listing.empty.Allows edits) :
    (empty.after edits).Shows (Listing.empty.after edits) ∧
      ∀ before edit rest, edits = before ++ edit :: rest →
        (edit.apply (empty.after before)).1 = ((Listing.empty.after before).edit edit).1 ∧
        ∀ id ∈ (Listing.empty.after before).cells,
          id ∉ (Listing.empty.after (before ++ [edit])).cells →
            (empty.after edits).cells[id]? = (empty.after before).cells[id]? := by
  refine ⟨(refines_empty.after hedits).shows, ?_⟩
  rintro before edit rest rfl
  rw [Listing.allows_append] at hedits
  obtain ⟨hbefore, hcell, hrest⟩ := hedits
  have hrefines := refines_empty.after hbefore
  obtain ⟨hanswer, hnext⟩ := hrefines.step hcell
  refine ⟨hanswer, fun id hid hnot => ?_⟩
  have hlt := hrefines.holds.lt_of_mem hid
  have hgone : id ∉ head :: (((Listing.empty.after before).edit edit).2.cells ++ [tail]) := by
    rw [Listing.after_append] at hnot
    rw [List.mem_cons, List.mem_append, List.mem_singleton]
    rintro (rfl | hcell | rfl)
    · exact hrefines.holds.head_notMem hid
    · exact hnot hcell
    · exact hrefines.holds.tail_notMem hid
  rw [after_append, after_cons,
    hnext.keep_after hrest (Nat.lt_of_lt_of_le hlt size_le_apply) hgone,
    hrefines.keep_step hcell hlt hgone]

/-- Three values come, the two behind the first one go, and one more comes. -/
def passing : List Edit :=
  [.insert head (.text "b"), .insert 2 (.text "c"), .insert head (.text "a"), .remove 4 2,
    .insert 4 (.text "d")]

theorem after_refines_passing :
    Listing.empty.Allows passing ∧
      (empty.after passing).Shows ⟨[(4, .text "a"), (5, .text "d")], 6⟩ ∧
      (empty.after passing).cells[2]? = (empty.after (passing.take 3)).cells[2]? := by
  have hallows : Listing.empty.Allows passing := by decide
  obtain ⟨hshows, hedits⟩ := after_refines passing hallows
  have hremove := hedits (passing.take 3) (.remove 4 2) [.insert 4 (.text "d")] rfl
  exact ⟨hallows, hshows, hremove.2 2 (by decide) (by decide)⟩

end TokenStream

end SyntaxHue
