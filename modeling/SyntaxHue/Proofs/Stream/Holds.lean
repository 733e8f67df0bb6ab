import Mathlib.Data.List.Basic
import SyntaxHue.Token.Stream

/-!
# The list that a stream holds

Between the head and the tail of a stream lie its linked cells. `Holds` says which they are and
what they hold: the links lead through them from the head to the tail and back, and the number of
values counts them. Inserting and removing keep it, as long as they take place behind the head or
a linked cell, and the functions that read a stream read that list.
-/

namespace SyntaxHue

namespace TokenStream

/-! ### Links -/

theorem getElem?_link (cells : Array StreamCell) (id next k : Nat) :
    (link cells id next)[k]? =
      (cells[k]?.map fun c => if id = k then { c with next := next } else c).map fun c =>
        if next = k then { c with prev := id } else c := by
  rw [link, Array.getElem?_modify, Array.getElem?_modify]
  cases cells[k]? with
  | none => split <;> split <;> rfl
  | some c => split <;> split <;> rfl

@[simp] theorem size_link (cells : Array StreamCell) (id next : Nat) :
    (link cells id next).size = cells.size := by
  rw [link, Array.size_modify, Array.size_modify]

variable {s t : TokenStream} {id k count : Nat} {value : Node}

/-- Of the cells of a stream there are no more different ones than it has. -/
theorem length_le_of_nodup {ids : List Nat} (hnodup : ids.Nodup)
    (hlt : ∀ k ∈ ids, k < s.cells.size) : ids.length ≤ s.cells.size := by
  have hsub : ids ⊆ List.range s.cells.size := fun k hk => List.mem_range.2 (hlt k hk)
  have hle := hnodup.length_le_of_subset hsub
  rwa [List.length_range] at hle

theorem ne_of_getElem?_none (hid : id < s.cells.size) (hk : s.cells[k]? = none) : id ≠ k := by
  rw [Array.getElem?_eq_none_iff] at hk
  exact Nat.ne_of_lt (Nat.lt_of_lt_of_le hid hk)

theorem getElem?_insertAfter (hid : id < s.cells.size) (hnext : s.next id < s.cells.size) (k : Nat) :
    (s.insertAfter id value).2.cells[k]? =
      if k = s.cells.size then some ⟨some value, id, s.next id⟩
      else (s.cells[k]?.map fun c => if id = k then { c with next := s.cells.size } else c).map
        fun c => if s.next id = k then { c with prev := s.cells.size } else c := by
  rw [insertAfter]
  simp only [getElem?_link, Array.getElem?_push, Option.map_map]
  by_cases hk : k = s.cells.size
  · subst hk
    have hid' : id ≠ s.cells.size := Nat.ne_of_lt hid
    have hnext' : s.next id ≠ s.cells.size := Nat.ne_of_lt hnext
    simp [hid', hnext']
  · rw [if_neg hk, if_neg hk]
    cases s.cells[k]? with
    | none => rfl
    | some c => simp [Ne.symm hk]

theorem next_insertAfter (hid : id < s.cells.size) (hnext : s.next id < s.cells.size) (k : Nat) :
    (s.insertAfter id value).2.next k =
      if k = s.cells.size then s.next id else if id = k then s.cells.size else s.next k := by
  rw [next, getElem?_insertAfter hid hnext]
  generalize s.next id = behind
  by_cases hk : k = s.cells.size
  · rw [if_pos hk, if_pos hk]
    rfl
  · rw [if_neg hk, if_neg hk, next]
    cases hcell : s.cells[k]? with
    | none =>
      have hne : id ≠ k := ne_of_getElem?_none hid hcell
      rw [if_neg hne]
      rfl
    | some c =>
      simp only [Option.map_some, Option.getD_some]
      split <;> split <;> rfl

theorem prev_insertAfter (hid : id < s.cells.size) (hnext : s.next id < s.cells.size) (k : Nat) :
    (s.insertAfter id value).2.prev k =
      if k = s.cells.size then id else if s.next id = k then s.cells.size else s.prev k := by
  rw [prev, getElem?_insertAfter hid hnext]
  by_cases hk : k = s.cells.size
  · rw [if_pos hk, if_pos hk]
    rfl
  · rw [if_neg hk, if_neg hk, prev]
    cases hcell : s.cells[k]? with
    | none =>
      have hne : s.next id ≠ k := ne_of_getElem?_none hnext hcell
      rw [if_neg hne]
      rfl
    | some c =>
      simp only [Option.map_some, Option.getD_some]
      split <;> split <;> rfl

theorem value?_insertAfter (hid : id < s.cells.size) (hnext : s.next id < s.cells.size) (k : Nat) :
    (s.insertAfter id value).2.value? k =
      if k = s.cells.size then some value else s.value? k := by
  rw [value?, getElem?_insertAfter hid hnext]
  by_cases hk : k = s.cells.size
  · simp [hk]
  · rw [if_neg hk, if_neg hk, value?]
    cases s.cells[k]? with
    | none => rfl
    | some c =>
      simp only [Option.map_some, Option.bind_some]
      split <;> split <;> rfl

@[simp] theorem size_insertAfter : (s.insertAfter id value).2.cells.size = s.cells.size + 1 := by
  simp [insertAfter]

/-- The cell that a removal behind `id` links to it. -/
def afterRemoval (s : TokenStream) (id count : Nat) : Nat :=
  (s.walk (s.next id) (min count s.cells.size)).1

theorem getElem?_removeAfter (k : Nat) :
    (s.removeAfter id count).2.cells[k]? =
      (s.cells[k]?.map fun c =>
        if id = k then { c with next := s.afterRemoval id count } else c).map fun c =>
          if s.afterRemoval id count = k then { c with prev := id } else c :=
  getElem?_link s.cells id (s.afterRemoval id count) k

theorem next_removeAfter (hid : id < s.cells.size) (k : Nat) :
    (s.removeAfter id count).2.next k =
      if id = k then s.afterRemoval id count else s.next k := by
  rw [next, getElem?_removeAfter, next]
  cases hcell : s.cells[k]? with
  | none =>
    have hne : id ≠ k := ne_of_getElem?_none hid hcell
    rw [if_neg hne]
    rfl
  | some c =>
    simp only [Option.map_some, Option.getD_some]
    split <;> split <;> rfl

theorem prev_removeAfter (hlast : s.afterRemoval id count < s.cells.size) (k : Nat) :
    (s.removeAfter id count).2.prev k =
      if s.afterRemoval id count = k then id else s.prev k := by
  rw [prev, getElem?_removeAfter, prev]
  cases hcell : s.cells[k]? with
  | none =>
    have hne : s.afterRemoval id count ≠ k := ne_of_getElem?_none hlast hcell
    rw [if_neg hne]
    rfl
  | some c =>
    simp only [Option.map_some, Option.getD_some]
    split <;> split <;> rfl

theorem value?_removeAfter (k : Nat) : (s.removeAfter id count).2.value? k = s.value? k := by
  rw [value?, getElem?_removeAfter, value?]
  cases s.cells[k]? with
  | none => rfl
  | some c =>
    simp only [Option.map_some, Option.bind_some]
    split <;> split <;> rfl

@[simp] theorem size_removeAfter :
    (s.removeAfter id count).2.cells.size = s.cells.size := by
  simp [removeAfter]

/-! ### Paths -/

/-- The links lead from `id` through `path`, forward and back. -/
def Path (s : TokenStream) : Nat → List Nat → Prop
  | _, [] => True
  | id, k :: path => s.next id = k ∧ s.prev k = id ∧ s.Path k path

@[simp] theorem path_nil : s.Path id [] ↔ True := Iff.rfl

@[simp] theorem path_cons {path : List Nat} :
    s.Path id (k :: path) ↔ s.next id = k ∧ s.prev k = id ∧ s.Path k path := Iff.rfl

theorem path_append {xs ys : List Nat} :
    s.Path id (xs ++ ys) ↔ s.Path id xs ∧ s.Path (xs.getLastD id) ys := by
  induction xs generalizing id with
  | nil => rw [List.nil_append, path_nil, true_and, List.getLastD_nil]
  | cons k xs ih =>
    rw [List.cons_append, path_cons, path_cons, ih, List.getLastD_cons, and_assoc, and_assoc]

/-- A path is there in every stream with the same links along it. -/
theorem Path.congr {path : List Nat} (h : s.Path id path)
    (hnext : ∀ k ∈ (id :: path).dropLast, t.next k = s.next k)
    (hprev : ∀ k ∈ path, t.prev k = s.prev k) : t.Path id path := by
  induction path generalizing id with
  | nil => trivial
  | cons k path ih =>
    simp only [List.dropLast_cons_of_ne_nil (List.cons_ne_nil k path), List.mem_cons] at hnext hprev
    obtain ⟨hid, hk, hpath⟩ := h
    refine ⟨?_, ?_, ih hpath ?_ ?_⟩
    · rw [hnext id (Or.inl rfl), hid]
    · rw [hprev k (Or.inl rfl), hk]
    · intro m hm
      exact hnext m (Or.inr hm)
    · intro m hm
      exact hprev m (Or.inr hm)

/-- Walking along a path that leads to the tail. -/
theorem walk_path {ids : List Nat} (h : s.Path id (ids ++ [tail])) (hids : tail ∉ ids) (n : Nat) :
    s.walk (s.next id) n = ((ids.drop n).headD tail, min n ids.length) := by
  induction n generalizing id ids with
  | zero =>
    cases ids with
    | nil => simpa [walk] using h.1
    | cons k ids => simpa [walk] using h.1
  | succ n ih =>
    cases ids with
    | nil =>
      have hnext : s.next id = tail := h.1
      simp [walk, hnext]
    | cons k ids =>
      obtain ⟨hnext, -, hpath⟩ := h
      rw [List.mem_cons, not_or] at hids
      rw [walk, hnext, if_neg (Ne.symm hids.1), ih hpath hids.2]
      simp only [List.drop_succ_cons, List.length_cons, Prod.mk.injEq, true_and]
      omega

theorem cellsFrom_path {ids : List Nat} (h : s.Path id (ids ++ [tail])) (hids : tail ∉ ids)
    {fuel : Nat} (hfuel : ids.length ≤ fuel) : s.cellsFrom fuel (s.next id) = ids := by
  induction fuel generalizing id ids with
  | zero =>
    rw [List.eq_nil_of_length_eq_zero (Nat.le_zero.1 hfuel), cellsFrom]
  | succ fuel ih =>
    cases ids with
    | nil =>
      have hnext : s.next id = tail := h.1
      rw [cellsFrom, if_pos hnext]
    | cons k ids =>
      obtain ⟨hnext, -, hpath⟩ := h
      rw [List.mem_cons, not_or] at hids
      rw [cellsFrom, hnext, if_neg (Ne.symm hids.1),
        ih hpath hids.2 (Nat.le_of_succ_le_succ hfuel)]

/-! ### Entries -/

/-- A linked cell and its value. -/
abbrev Entry := Nat × Node

/-- The cells of entries. -/
def cellsOf (entries : List Entry) : List Nat :=
  entries.map Prod.fst

/-- The values of entries. -/
def valuesOf (entries : List Entry) : List Node :=
  entries.map Prod.snd

/-- The last cell of entries, or the head if there are none. -/
def lastOf (entries : List Entry) : Nat :=
  (cellsOf entries).getLastD head

/-- The first cell of entries, or the tail if there are none. -/
def firstOf (entries : List Entry) : Nat :=
  (cellsOf entries).headD tail

@[simp] theorem cellsOf_nil : cellsOf [] = [] := rfl

@[simp] theorem cellsOf_cons (entry : Entry) (entries : List Entry) :
    cellsOf (entry :: entries) = entry.1 :: cellsOf entries := rfl

@[simp] theorem cellsOf_append (xs ys : List Entry) :
    cellsOf (xs ++ ys) = cellsOf xs ++ cellsOf ys :=
  List.map_append

@[simp] theorem length_cellsOf (entries : List Entry) :
    (cellsOf entries).length = entries.length :=
  List.length_map _

@[simp] theorem valuesOf_nil : valuesOf [] = [] := rfl

@[simp] theorem valuesOf_cons (entry : Entry) (entries : List Entry) :
    valuesOf (entry :: entries) = entry.2 :: valuesOf entries := rfl

@[simp] theorem valuesOf_append (xs ys : List Entry) :
    valuesOf (xs ++ ys) = valuesOf xs ++ valuesOf ys :=
  List.map_append

@[simp] theorem length_valuesOf (entries : List Entry) :
    (valuesOf entries).length = entries.length :=
  List.length_map _

@[simp] theorem lastOf_nil : lastOf [] = head := rfl

@[simp] theorem lastOf_concat (entries : List Entry) (entry : Entry) :
    lastOf (entries ++ [entry]) = entry.1 := by
  rw [lastOf, cellsOf_append, cellsOf_cons, cellsOf_nil, List.getLastD_concat]

@[simp] theorem firstOf_nil : firstOf [] = tail := rfl

@[simp] theorem firstOf_cons (entry : Entry) (entries : List Entry) :
    firstOf (entry :: entries) = entry.1 := rfl

theorem lastOf_mem (entries : List Entry) : lastOf entries ∈ head :: cellsOf entries := by
  rcases List.eq_nil_or_concat' entries with rfl | ⟨init, entry, rfl⟩
  · exact List.mem_cons_self
  · simp

theorem firstOf_mem (entries : List Entry) : firstOf entries ∈ cellsOf entries ++ [tail] := by
  cases entries with
  | nil => exact List.mem_singleton_self tail
  | cons entry entries => exact List.mem_cons_self

theorem cellsOf_drop (entries : List Entry) (n : Nat) :
    cellsOf (entries.drop n) = (cellsOf entries).drop n :=
  List.map_drop

/-- A path from the head through the cells of entries and on. -/
theorem path_cellsOf_append {entries : List Entry} {path : List Nat} :
    s.Path head (cellsOf entries ++ path) ↔
      s.Path head (cellsOf entries) ∧ s.Path (lastOf entries) path :=
  path_append

/-! ### What comes before a place -/

/-- From `s` to `t` the head and the cells of `front` keep their values and their links, but for the
    link that leads on behind the last of them. -/
structure Keeps (front : List Entry) (s t : TokenStream) : Prop where
  value : ∀ k ∈ head :: cellsOf front, t.value? k = s.value? k
  prev : ∀ k ∈ head :: cellsOf front, t.prev k = s.prev k
  next : ∀ k ∈ (head :: cellsOf front).dropLast, t.next k = s.next k

namespace Keeps

variable {front mid back : List Entry} {u : TokenStream}

theorem refl (front : List Entry) (s : TokenStream) : Keeps front s s :=
  ⟨fun _ _ => rfl, fun _ _ => rfl, fun _ _ => rfl⟩

theorem trans (h : Keeps front s t) (h' : Keeps front t u) : Keeps front s u where
  value k hk := (h'.value k hk).trans (h.value k hk)
  prev k hk := (h'.prev k hk).trans (h.prev k hk)
  next k hk := (h'.next k hk).trans (h.next k hk)

theorem mono (h : Keeps (front ++ mid) s t) : Keeps front s t := by
  have hsub : ∀ k ∈ head :: cellsOf front, k ∈ head :: cellsOf (front ++ mid) := by
    intro k hk
    rw [cellsOf_append, ← List.cons_append]
    exact List.mem_append_left _ hk
  refine ⟨fun k hk => h.value k (hsub k hk), fun k hk => h.prev k (hsub k hk), ?_⟩
  intro k hk
  refine h.next k ?_
  rw [cellsOf_append, ← List.cons_append]
  rcases List.eq_nil_or_concat' (cellsOf mid) with hmid | ⟨init, last, hmid⟩
  · rwa [hmid, List.append_nil]
  · rw [hmid, ← List.append_assoc, List.dropLast_concat]
    exact List.mem_append_left _ (List.dropLast_subset _ hk)

/-- The path up to the place is still there. -/
theorem path (h : Keeps front s t) (hpath : s.Path head (cellsOf front)) :
    t.Path head (cellsOf front) :=
  hpath.congr h.next fun k hk => h.prev k (List.mem_cons_of_mem head hk)

end Keeps

/-! ### Lists -/

/-- The links behind a cell can lead on from another one. -/
theorem Path.relink {back : List Entry} (h : s.Path id (cellsOf back ++ [tail]))
    (hnodup : (cellsOf back ++ [tail]).Nodup) (hnext : t.next k = firstOf back)
    (hprev : t.prev (firstOf back) = k)
    (hnexts : ∀ m ∈ cellsOf back ++ [tail], t.next m = s.next m)
    (hprevs : ∀ m ∈ cellsOf back ++ [tail], m ≠ firstOf back → t.prev m = s.prev m) :
    t.Path k (cellsOf back ++ [tail]) := by
  cases back with
  | nil => exact ⟨hnext, hprev, trivial⟩
  | cons entry back =>
    rw [cellsOf_cons, List.cons_append] at hnodup hnexts hprevs
    refine ⟨hnext, hprev, h.2.2.congr ?_ ?_⟩
    · intro m hm
      exact hnexts m (List.dropLast_subset _ hm)
    · intro m hm
      refine hprevs m (List.mem_cons_of_mem _ hm) ?_
      rintro rfl
      exact (List.nodup_cons.1 hnodup).1 hm

/-- The stream `s` has the linked cells `entries`, in order. -/
structure Holds (s : TokenStream) (entries : List Entry) : Prop where
  path : s.Path head (cellsOf entries ++ [tail])
  nodup : (head :: (cellsOf entries ++ [tail])).Nodup
  value : ∀ entry ∈ entries, s.value? entry.1 = some entry.2
  head_value : s.value? head = none
  tail_value : s.value? tail = none
  tail_lt : tail < s.cells.size
  len_eq : s.len = UInt64.ofNat entries.length

theorem holds_empty : empty.Holds [] where
  path := ⟨rfl, rfl, trivial⟩
  nodup := by decide
  value := by simp
  head_value := rfl
  tail_value := rfl
  tail_lt := by decide
  len_eq := rfl

namespace Holds

variable {entries front back : List Entry}

theorem lt_of_value? {v : Node} (h : s.value? id = some v) : id < s.cells.size := by
  refine Nat.lt_of_not_le fun hle => ?_
  rw [value?, Array.getElem?_eq_none hle] at h
  simp at h

theorem lt_of_mem (h : s.Holds entries) {k : Nat} (hk : k ∈ cellsOf entries) :
    k < s.cells.size := by
  obtain ⟨entry, hentry, rfl⟩ := List.mem_map.1 hk
  exact lt_of_value? (h.value entry hentry)

/-- All cells from the head to the tail are cells of the stream. -/
theorem lt_of_mem_path (h : s.Holds entries) {k : Nat}
    (hk : k ∈ head :: (cellsOf entries ++ [tail])) : k < s.cells.size := by
  have htail := h.tail_lt
  simp only [List.mem_cons, List.mem_append, List.not_mem_nil, or_false] at hk
  rcases hk with rfl | hk | rfl
  · exact Nat.lt_trans Nat.zero_lt_one htail
  · exact h.lt_of_mem hk
  · exact htail

theorem head_notMem (h : s.Holds entries) : head ∉ cellsOf entries := by
  have hnodup := (List.nodup_cons.1 h.nodup).1
  rw [List.mem_append, not_or] at hnodup
  exact hnodup.1

theorem tail_notMem (h : s.Holds entries) : tail ∉ cellsOf entries := by
  have hnodup := (List.nodup_append.1 (List.nodup_cons.1 h.nodup).2).2.2
  intro hmem
  exact hnodup tail hmem tail List.mem_cons_self rfl

theorem nodup_cells (h : s.Holds entries) : (cellsOf entries).Nodup :=
  (List.nodup_append.1 (List.nodup_cons.1 h.nodup).2).1

/-- There are no more linked cells than cells. -/
theorem length_le (h : s.Holds entries) : entries.length ≤ s.cells.size := by
  have hle := length_le_of_nodup h.nodup_cells fun _ hk => h.lt_of_mem hk
  rwa [length_cellsOf] at hle

/-! ### Reading -/

theorem cells_eq (h : s.Holds entries) :
    s.cellsFrom s.cells.size (s.next head) = cellsOf entries := by
  refine cellsFrom_path h.path h.tail_notMem ?_
  rw [length_cellsOf]
  exact h.length_le

theorem filterMap_value? (h : ∀ entry ∈ entries, s.value? entry.1 = some entry.2) :
    (cellsOf entries).filterMap s.value? = valuesOf entries := by
  induction entries with
  | nil => rfl
  | cons entry entries ih =>
    rw [List.forall_mem_cons] at h
    rw [cellsOf_cons, List.filterMap_cons_some h.1, ih h.2, valuesOf_cons]

theorem toList_eq (h : s.Holds entries) : s.toList = valuesOf entries := by
  rw [toList, h.cells_eq, filterMap_value? h.value]

theorem valuesFrom_eq (hpath : s.Path id (cellsOf entries ++ [tail]))
    (htail : tail ∉ cellsOf entries) (hvalue : ∀ entry ∈ entries, s.value? entry.1 = some entry.2)
    {fuel : Nat} (hfuel : entries.length ≤ fuel) :
    s.valuesFrom fuel (s.next id) = valuesOf entries := by
  induction fuel generalizing id entries with
  | zero =>
    rw [List.eq_nil_of_length_eq_zero (Nat.le_zero.1 hfuel)]
    rfl
  | succ fuel ih =>
    cases entries with
    | nil =>
      have hnext : s.next id = tail := hpath.1
      rw [valuesFrom, if_pos hnext]
      rfl
    | cons entry entries =>
      obtain ⟨hnext, -, hpath⟩ := hpath
      rw [cellsOf_cons, List.mem_cons, not_or] at htail
      rw [List.forall_mem_cons] at hvalue
      rw [valuesFrom, hnext, if_neg (Ne.symm htail.1), hvalue.1, valuesOf_cons]
      dsimp only
      rw [ih hpath htail.2 hvalue.2 (Nat.le_of_succ_le_succ hfuel)]

theorem values_eq (h : s.Holds entries) : s.values = valuesOf entries :=
  valuesFrom_eq h.path h.tail_notMem h.value h.length_le

/-- The number of values, as long as it can be counted in 64 bits. -/
theorem toNat_len (h : s.Holds entries) (hlength : entries.length < UInt64.size) :
    s.len.toNat = entries.length := by
  rw [h.len_eq]
  exact UInt64.toNat_ofNat_of_lt' hlength

/-! ### A place between two cells -/

/-- What the links say at a place between two entries. -/
theorem path_split (h : s.Holds (front ++ back)) :
    s.Path head (cellsOf front) ∧ s.Path (lastOf front) (cellsOf back ++ [tail]) := by
  have hpath := h.path
  rw [cellsOf_append, List.append_assoc, path_cellsOf_append] at hpath
  exact hpath

theorem next_lastOf (h : s.Holds (front ++ back)) : s.next (lastOf front) = firstOf back := by
  have hpath := h.path_split.2
  cases back with
  | nil => exact hpath.1
  | cons entry back => exact hpath.1

theorem prev_firstOf (h : s.Holds (front ++ back)) : s.prev (firstOf back) = lastOf front := by
  have hpath := h.path_split.2
  cases back with
  | nil => exact hpath.2.1
  | cons entry back => exact hpath.2.1

theorem lastOf_lt (h : s.Holds (front ++ back)) : lastOf front < s.cells.size := by
  refine h.lt_of_mem_path ?_
  rw [cellsOf_append]
  rcases List.mem_cons.1 (lastOf_mem front) with hhead | hmem
  · rw [hhead]
    exact List.mem_cons_self
  · simp [hmem]

theorem firstOf_lt (h : s.Holds (front ++ back)) : firstOf back < s.cells.size := by
  refine h.lt_of_mem_path ?_
  cases back with
  | nil => simp
  | cons entry back => simp

/-- The path of a stream, with a place between two entries marked. -/
theorem nodup_split (h : s.Holds (front ++ back)) :
    (head :: cellsOf front).Nodup ∧ (cellsOf back ++ [tail]).Nodup ∧
      ∀ k ∈ head :: cellsOf front, ∀ m ∈ cellsOf back ++ [tail], k ≠ m := by
  have hnodup := h.nodup
  rw [cellsOf_append, List.append_assoc, ← List.cons_append, List.nodup_append] at hnodup
  exact hnodup

/-- The last cell before a place comes before none of the cells up to there. -/
theorem ne_lastOf (h : s.Holds (front ++ back)) {k : Nat}
    (hk : k ∈ (head :: cellsOf front).dropLast) : lastOf front ≠ k := by
  have hnodup := h.nodup_split.1
  rcases List.eq_nil_or_concat' front with rfl | ⟨init, entry, rfl⟩
  · simp at hk
  · rw [cellsOf_append, cellsOf_cons, cellsOf_nil, ← List.cons_append, List.dropLast_concat] at hk
    rw [cellsOf_append, cellsOf_cons, cellsOf_nil, ← List.cons_append, List.nodup_append] at hnodup
    rw [lastOf_concat]
    intro heq
    exact hnodup.2.2 k hk entry.1 List.mem_cons_self heq.symm

/-! ### Editing -/

/-- The number that the next new cell gets is not the number of a linked one. -/
theorem ne_size (h : s.Holds (front ++ back)) :
    ∀ k ∈ (head :: cellsOf front) ++ (cellsOf back ++ [tail]), k ≠ s.cells.size := by
  intro k hk
  refine Nat.ne_of_lt (h.lt_of_mem_path ?_)
  rwa [cellsOf_append, List.append_assoc]

theorem next_lastOf_lt (h : s.Holds (front ++ back)) : s.next (lastOf front) < s.cells.size := by
  rw [h.next_lastOf]
  exact h.firstOf_lt

theorem keeps_insertAfter (h : s.Holds (front ++ back)) (v : Node) :
    Keeps front s (s.insertAfter (lastOf front) v).2 := by
  have hlast := h.lastOf_lt
  have hfirst := h.next_lastOf_lt
  have hnew : ∀ k ∈ head :: cellsOf front, k ≠ s.cells.size :=
    fun k hk => h.ne_size k (List.mem_append_left _ hk)
  refine ⟨?_, ?_, ?_⟩
  · intro k hk
    rw [value?_insertAfter hlast hfirst, if_neg (hnew k hk)]
  · intro k hk
    have hfar := h.nodup_split.2.2 k hk (firstOf back) (firstOf_mem back)
    rw [prev_insertAfter hlast hfirst, if_neg (hnew k hk), h.next_lastOf, if_neg hfar.symm]
  · intro k hk
    have hne := hnew k (List.dropLast_subset _ hk)
    rw [next_insertAfter hlast hfirst, if_neg hne, if_neg (h.ne_lastOf hk)]

theorem path_insertAfter (h : s.Holds (front ++ back)) (v : Node) :
    (s.insertAfter (lastOf front) v).2.Path head
      (cellsOf (front ++ (s.cells.size, v) :: back) ++ [tail]) := by
  have hlast := h.lastOf_lt
  have hfirst := h.next_lastOf_lt
  obtain ⟨hfront, hback⟩ := h.path_split
  obtain ⟨-, hnodupBack, hapart⟩ := h.nodup_split
  have hnew : ∀ k ∈ cellsOf back ++ [tail], k ≠ s.cells.size :=
    fun k hk => h.ne_size k (List.mem_append_right _ hk)
  rw [cellsOf_append, cellsOf_cons, List.append_assoc, path_cellsOf_append]
  refine ⟨(h.keeps_insertAfter v).path hfront, ?_, ?_, hback.relink hnodupBack ?_ ?_ ?_ ?_⟩
  · rw [next_insertAfter hlast hfirst, if_neg (Nat.ne_of_lt hlast), if_pos rfl]
  · rw [prev_insertAfter hlast hfirst, if_pos rfl]
  · rw [next_insertAfter hlast hfirst, if_pos rfl, h.next_lastOf]
  · have hne := hnew _ (firstOf_mem back)
    rw [prev_insertAfter hlast hfirst, if_neg hne, if_pos h.next_lastOf]
  · intro k hk
    have hfar := hapart (lastOf front) (lastOf_mem front) k hk
    rw [next_insertAfter hlast hfirst, if_neg (hnew k hk), if_neg hfar]
  · intro k hk hother
    rw [prev_insertAfter hlast hfirst, if_neg (hnew k hk), h.next_lastOf, if_neg hother.symm]

theorem nodup_insertAfter (h : s.Holds (front ++ back)) (v : Node) :
    (head :: (cellsOf (front ++ (s.cells.size, v) :: back) ++ [tail])).Nodup := by
  obtain ⟨hnodupFront, hnodupBack, hapart⟩ := h.nodup_split
  rw [cellsOf_append, cellsOf_cons, List.append_assoc, List.cons_append, ← List.cons_append,
    List.nodup_append]
  refine ⟨hnodupFront, List.nodup_cons.2 ⟨?_, hnodupBack⟩, ?_⟩
  · intro hmem
    exact h.ne_size _ (List.mem_append_right _ hmem) rfl
  · intro k hk m hm
    rcases List.mem_cons.1 hm with rfl | hm
    · exact h.ne_size k (List.mem_append_left _ hk)
    · exact hapart k hk m hm

/-- A value that is put behind the last of some entries comes right behind them. -/
theorem insertAfter (h : s.Holds (front ++ back)) (v : Node) :
    (s.insertAfter (lastOf front) v).2.Holds (front ++ (s.cells.size, v) :: back) := by
  have hvalue : ∀ k ≠ s.cells.size,
      (s.insertAfter (lastOf front) v).2.value? k = s.value? k := by
    intro k hk
    rw [value?_insertAfter h.lastOf_lt h.next_lastOf_lt, if_neg hk]
  refine ⟨h.path_insertAfter v, h.nodup_insertAfter v, ?_, ?_, ?_, ?_, ?_⟩
  · intro entry hentry
    rw [List.mem_append, List.mem_cons] at hentry
    by_cases hmem : entry ∈ front ++ back
    · rw [hvalue _ (Nat.ne_of_lt (h.lt_of_mem (List.mem_map_of_mem hmem)))]
      exact h.value entry hmem
    · obtain rfl : entry = (s.cells.size, v) := by
        rw [List.mem_append] at hmem
        tauto
      rw [value?_insertAfter h.lastOf_lt h.next_lastOf_lt, if_pos rfl]
  · rw [hvalue _ (h.ne_size head (by simp))]
    exact h.head_value
  · rw [hvalue _ (h.ne_size tail (by simp))]
    exact h.tail_value
  · rw [size_insertAfter]
    exact Nat.lt_succ_of_lt h.tail_lt
  · have hlen := h.len_eq
    rw [List.length_append] at hlen
    rw [List.length_append, List.length_cons, ← Nat.add_assoc, UInt64.ofNat_add, ← hlen]
    rfl

theorem tail_notMem_back (h : s.Holds (front ++ back)) : tail ∉ cellsOf back := by
  have hmem := h.tail_notMem
  rw [cellsOf_append, List.mem_append, not_or] at hmem
  exact hmem.2

theorem length_back_le (h : s.Holds (front ++ back)) : back.length ≤ s.cells.size := by
  have hle := h.length_le
  rw [List.length_append] at hle
  exact Nat.le_trans (Nat.le_add_left _ _) hle

/-- Walking on from a place between two parts of the list. -/
theorem walk_firstOf (h : s.Holds (front ++ back)) (n : Nat) :
    s.walk (firstOf back) n = (firstOf (back.drop n), min n back.length) := by
  rw [← h.next_lastOf, walk_path h.path_split.2 h.tail_notMem_back, length_cellsOf, firstOf,
    cellsOf_drop]

theorem valuesFrom_firstOf (h : s.Holds (front ++ back)) :
    s.valuesFrom s.cells.size (firstOf back) = valuesOf back := by
  rw [← h.next_lastOf]
  refine valuesFrom_eq h.path_split.2 h.tail_notMem_back ?_ h.length_back_le
  intro entry hentry
  exact h.value entry (List.mem_append_right _ hentry)

/-- A removal behind the last of some entries steps over those behind them. -/
theorem walk_eq (h : s.Holds (front ++ back)) (count : Nat) :
    s.walk (s.next (lastOf front)) (min count s.cells.size) =
      (firstOf (back.drop count), min count back.length) := by
  have hle := h.length_back_le
  rw [h.next_lastOf, h.walk_firstOf, Prod.mk.injEq]
  constructor
  · rcases Nat.le_total count s.cells.size with hcount | hcount
    · rw [Nat.min_eq_left hcount]
    · rw [Nat.min_eq_right hcount, List.drop_of_length_le hle,
        List.drop_of_length_le (Nat.le_trans hle hcount)]
  · omega

theorem afterRemoval_eq (h : s.Holds (front ++ back)) (count : Nat) :
    s.afterRemoval (lastOf front) count = firstOf (back.drop count) := by
  rw [afterRemoval, h.walk_eq]

/-- The number of values that a removal answers with. -/
theorem removed_eq (h : s.Holds (front ++ back)) (count : Nat) :
    (s.removeAfter (lastOf front) count).1 = min count back.length := by
  rw [TokenStream.removeAfter, h.walk_eq]

/-- A removal leaves some of the cells behind its place. -/
theorem mem_of_drop {count k : Nat} (hk : k ∈ cellsOf (back.drop count) ++ [tail]) :
    k ∈ cellsOf back ++ [tail] := by
  rw [List.mem_append, cellsOf_drop] at hk
  exact List.mem_append.2 (hk.imp_left List.mem_of_mem_drop)

/-- The place of a removal, seen from what it leaves. -/
theorem split_drop (h : s.Holds (front ++ back)) (count : Nat) :
    s.Holds (front ++ back.take count ++ back.drop count) := by
  rwa [List.append_assoc, List.take_append_drop]

theorem afterRemoval_lt (h : s.Holds (front ++ back)) (count : Nat) :
    s.afterRemoval (lastOf front) count < s.cells.size := by
  rw [h.afterRemoval_eq]
  exact (h.split_drop count).firstOf_lt

theorem keeps_removeAfter (h : s.Holds (front ++ back)) (count : Nat) :
    Keeps front s (s.removeAfter (lastOf front) count).2 := by
  refine ⟨fun k _ => value?_removeAfter k, ?_, ?_⟩
  · intro k hk
    have hfar := h.nodup_split.2.2 k hk _ (mem_of_drop (firstOf_mem (back.drop count)))
    rw [prev_removeAfter (h.afterRemoval_lt count), h.afterRemoval_eq, if_neg hfar.symm]
  · intro k hk
    rw [next_removeAfter h.lastOf_lt, if_neg (h.ne_lastOf hk)]

theorem path_removeAfter (h : s.Holds (front ++ back)) (count : Nat) :
    (s.removeAfter (lastOf front) count).2.Path head
      (cellsOf (front ++ back.drop count) ++ [tail]) := by
  have hlast := h.lastOf_lt
  have hfirst := h.afterRemoval_lt count
  have hafter := h.afterRemoval_eq count
  obtain ⟨hfront, -⟩ := h.path_split
  obtain ⟨-, hback⟩ := (h.split_drop count).path_split
  obtain ⟨-, hnodupRest, -⟩ := (h.split_drop count).nodup_split
  rw [cellsOf_append, List.append_assoc, path_cellsOf_append]
  refine ⟨(h.keeps_removeAfter count).path hfront, hback.relink hnodupRest ?_ ?_ ?_ ?_⟩
  · rw [next_removeAfter hlast, if_pos rfl, hafter]
  · rw [prev_removeAfter hfirst, if_pos hafter]
  · intro k hk
    have hfar := h.nodup_split.2.2 (lastOf front) (lastOf_mem front) k (mem_of_drop hk)
    rw [next_removeAfter hlast, if_neg hfar]
  · intro k hk hother
    rw [prev_removeAfter hfirst, hafter, if_neg hother.symm]

theorem nodup_removeAfter (h : s.Holds (front ++ back)) (count : Nat) :
    (head :: (cellsOf (front ++ back.drop count) ++ [tail])).Nodup := by
  obtain ⟨hnodupFront, -, hapart⟩ := h.nodup_split
  obtain ⟨-, hnodupRest, -⟩ := (h.split_drop count).nodup_split
  rw [cellsOf_append, List.append_assoc, ← List.cons_append, List.nodup_append]
  refine ⟨hnodupFront, hnodupRest, ?_⟩
  intro k hk m hm
  exact hapart k hk m (mem_of_drop hm)

/-- A removal behind the last of some entries drops those behind them. -/
theorem removeAfter (h : s.Holds (front ++ back)) (count : Nat) :
    (s.removeAfter (lastOf front) count).2.Holds (front ++ back.drop count) := by
  refine ⟨h.path_removeAfter count, h.nodup_removeAfter count, ?_, ?_, ?_, ?_, ?_⟩
  · intro entry hentry
    rw [value?_removeAfter]
    refine h.value entry ?_
    rw [List.mem_append] at hentry ⊢
    exact hentry.imp_right List.mem_of_mem_drop
  · rw [value?_removeAfter]
    exact h.head_value
  · rw [value?_removeAfter]
    exact h.tail_value
  · rw [size_removeAfter]
    exact h.tail_lt
  · have hlen := h.len_eq
    have hcount : (front ++ back).length =
        (front ++ back.drop count).length + min count back.length := by
      rw [List.length_append, List.length_append, List.length_drop]
      omega
    rw [hcount, UInt64.ofNat_add] at hlen
    rw [TokenStream.removeAfter, h.walk_eq]
    dsimp only
    rw [hlen, UInt64.add_sub_cancel]

/-! ### Cells that are not linked -/

/-- An insertion changes no cells but its neighbours. -/
theorem keep_insertAfter (h : s.Holds (front ++ back)) (v : Node) (hk : k < s.cells.size)
    (hlast : k ≠ lastOf front) (hfirst : k ≠ firstOf back) :
    (s.insertAfter (lastOf front) v).2.cells[k]? = s.cells[k]? := by
  rw [getElem?_insertAfter h.lastOf_lt h.next_lastOf_lt, if_neg (Nat.ne_of_lt hk), h.next_lastOf]
  cases s.cells[k]? with
  | none => rfl
  | some c => simp only [Option.map_some, if_neg hlast.symm, if_neg hfirst.symm]

/-- A removal changes no cells but those around what it removes. -/
theorem keep_removeAfter (h : s.Holds (front ++ back)) (count : Nat) (hlast : k ≠ lastOf front)
    (hfirst : k ≠ firstOf (back.drop count)) :
    (s.removeAfter (lastOf front) count).2.cells[k]? = s.cells[k]? := by
  rw [getElem?_removeAfter, h.afterRemoval_eq]
  cases s.cells[k]? with
  | none => rfl
  | some c => simp only [Option.map_some, if_neg hlast.symm, if_neg hfirst.symm]

end Holds

end TokenStream

end SyntaxHue
