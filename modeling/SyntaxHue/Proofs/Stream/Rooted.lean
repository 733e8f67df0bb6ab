import SyntaxHue.Proofs.Stream.Holds

/-!
# The links of a stream lead to its tail

A stream can be edited behind every cell that it ever had. Behind a cell that was removed an edit
makes the links back and the count of the values wrong, so that the cells are no list any more. The
links forward are still a tree whose root is the tail: an edit gives a cell a new link to something
from which its own cell is not reached. So no use of a stream makes going through it endless.
-/

namespace SyntaxHue

namespace TokenStream

/-- The links lead from a cell through the cells `path`, of which it is the first, to the tail. -/
inductive Leads (s : TokenStream) : Nat → List Nat → Prop where
  | stop : s.Leads tail []
  | step {id : Nat} {path : List Nat} (hid : id ≠ tail) (hpath : s.Leads (s.next id) path) :
      s.Leads id (id :: path)

/-- The streams that come of the empty one by insertions, not behind the tail, and removals. They
    take place behind any cell, also one that is not linked. What becomes of the count is left
    open. -/
inductive Used : TokenStream → Prop where
  | empty : Used .empty
  | insert {s : TokenStream} (h : Used s) {id : Nat} (hid : id < s.cells.size) (htail : id ≠ tail)
      (value : Node) : Used (s.insertAfter id value).2
  | remove {s : TokenStream} (h : Used s) {id : Nat} (hid : id < s.cells.size) (count : Nat) :
      Used (s.removeAfter id count).2
  | recount {s : TokenStream} (h : Used s) (len : UInt64) : Used { s with len }

variable {s t : TokenStream} {id k count : Nat} {path other : List Nat}

/-! ### Paths to the tail -/

namespace Leads

theorem unique (h : s.Leads id path) (h' : s.Leads id other) : path = other := by
  induction h generalizing other with
  | stop =>
    cases h' with
    | stop => rfl
    | step hid => exact absurd rfl hid
  | step hid _ ih =>
    cases h' with
    | stop => exact absurd rfl hid
    | step _ hpath' => rw [ih hpath']

/-- From a cell on the path the links lead along the rest of it. -/
theorem exists_suffix (h : s.Leads id path) (hk : k ∈ path) :
    ∃ rest, s.Leads k rest ∧ rest <:+ path := by
  induction h with
  | stop => exact absurd hk List.not_mem_nil
  | @step id path hid hpath ih =>
    rcases List.mem_cons.1 hk with rfl | hk
    · exact ⟨_, .step hid hpath, List.suffix_rfl⟩
    · obtain ⟨rest, hrest, hsuffix⟩ := ih hk
      exact ⟨rest, hrest, hsuffix.trans (List.suffix_cons _ _)⟩

/-- No cell is visited twice. -/
theorem nodup (h : s.Leads id path) : path.Nodup := by
  induction h with
  | stop => exact List.nodup_nil
  | @step id path hid hpath ih =>
    refine List.nodup_cons.2 ⟨?_, ih⟩
    intro hmem
    -- the path of `id` would be a part of what follows `id` on it
    obtain ⟨rest, hrest, hsuffix⟩ := hpath.exists_suffix hmem
    rw [hrest.unique (.step hid hpath)] at hsuffix
    exact absurd hsuffix.length_le (Nat.not_succ_le_self _)

/-- The path from behind a cell does not come back to the cell. -/
theorem notMem (h : s.Leads (s.next id) path) (hid : id ≠ tail) : id ∉ path :=
  (List.nodup_cons.1 (Leads.step hid h).nodup).1

theorem congr (h : s.Leads id path) (hnext : ∀ k ∈ path, t.next k = s.next k) :
    t.Leads id path := by
  induction h with
  | stop => exact .stop
  | @step id path hid _ ih =>
    rw [List.forall_mem_cons] at hnext
    have hrest := ih hnext.2
    rw [← hnext.1] at hrest
    exact .step hid hrest

/-- If one cell gets another link, from which the tail is reached, then every path still leads to
    the tail. -/
theorem relink (h : s.Leads k path) (hnext : ∀ m ∈ path, m ≠ id → t.next m = s.next m)
    (hid : t.Leads id other) : ∃ path', t.Leads k path' := by
  induction h with
  | stop => exact ⟨[], .stop⟩
  | @step k path hk _ ih =>
    by_cases heq : k = id
    · exact ⟨other, heq ▸ hid⟩
    · rw [List.forall_mem_cons] at hnext
      obtain ⟨path', hpath'⟩ := ih hnext.2
      rw [← hnext.1 heq] at hpath'
      exact ⟨k :: path', .step hk hpath'⟩

theorem drop (h : s.Leads id path) (n : Nat) :
    s.Leads ((path.drop n).headD tail) (path.drop n) := by
  induction h generalizing n with
  | stop =>
    rw [List.drop_nil]
    exact .stop
  | step hid hpath ih =>
    cases n with
    | zero => exact .step hid hpath
    | succ n => exact ih n

theorem lt_of_mem (h : s.Leads id path) (hid : id < s.cells.size)
    (hnext : ∀ m, s.next m < s.cells.size) (hk : k ∈ path) : k < s.cells.size := by
  induction h with
  | stop => exact absurd hk List.not_mem_nil
  | step _ _ ih =>
    rcases List.mem_cons.1 hk with rfl | hk
    · exact hid
    · exact ih (hnext _) hk

theorem ne_tail (h : s.Leads id path) (hk : k ∈ path) : k ≠ tail := by
  induction h with
  | stop => exact absurd hk List.not_mem_nil
  | step hid _ ih =>
    rcases List.mem_cons.1 hk with rfl | hk
    · exact hid
    · exact ih hk

/-! ### Going along a path -/

/-- However many steps are asked for, as many are made as there are cells before the tail. -/
theorem walk_eq (h : s.Leads id path) (n : Nat) :
    s.walk id n = ((path.drop n).headD tail, min n path.length) := by
  induction h generalizing n with
  | stop => cases n <;> simp [walk]
  | step hid _ ih =>
    cases n with
    | zero => simp [walk]
    | succ n =>
      rw [walk, if_neg hid, ih n]
      simp

theorem cellsFrom_eq (h : s.Leads id path) {fuel : Nat} (hfuel : path.length ≤ fuel) :
    s.cellsFrom fuel id = path := by
  induction h generalizing fuel with
  | stop => cases fuel <;> simp [cellsFrom]
  | step hid _ ih =>
    cases fuel with
    | zero => exact absurd hfuel (Nat.not_succ_le_zero _)
    | succ fuel => rw [cellsFrom, if_neg hid, ih (Nat.le_of_succ_le_succ hfuel)]

theorem valuesFrom_eq (h : s.Leads id path) (hvalue : ∀ k ∈ path, (s.value? k).isSome)
    {fuel : Nat} (hfuel : path.length ≤ fuel) :
    s.valuesFrom fuel id = path.filterMap s.value? := by
  induction h generalizing fuel with
  | stop => cases fuel <;> simp [valuesFrom]
  | step hid _ ih =>
    cases fuel with
    | zero => exact absurd hfuel (Nat.not_succ_le_zero _)
    | succ fuel =>
      rw [List.forall_mem_cons] at hvalue
      obtain ⟨value, hhere⟩ := Option.isSome_iff_exists.1 hvalue.1
      rw [valuesFrom, if_neg hid, List.filterMap_cons_some hhere, hhere]
      dsimp only
      rw [ih hvalue.2 (Nat.le_of_succ_le_succ hfuel)]

end Leads

/-! ### What edits keep -/

/-- From every cell the links lead to the tail. Only the head and the tail have no value, and
    nothing links to the head. -/
structure Rooted (s : TokenStream) : Prop where
  tail_lt : tail < s.cells.size
  next_lt : ∀ id, s.next id < s.cells.size
  next_ne_head : ∀ id, s.next id ≠ head
  next_tail : s.next tail = tail
  value : ∀ id < s.cells.size, id ≠ head → id ≠ tail → (s.value? id).isSome
  leads : ∀ id < s.cells.size, ∃ path, s.Leads id path

theorem rooted_empty : empty.Rooted := by
  have hcells : ∀ id < empty.cells.size, id = head ∨ id = tail := by decide
  have hnext : ∀ id, empty.next id = tail := by
    intro id
    by_cases hid : id < empty.cells.size
    · rcases hcells id hid with rfl | rfl <;> rfl
    · rw [next, Array.getElem?_eq_none (Nat.not_lt.1 hid)]
      rfl
  have hhead : empty.Leads head [head] := .step (by decide) (hnext head ▸ .stop)
  constructor
  case tail_lt => decide
  case next_lt =>
    intro id
    rw [hnext]
    decide
  case next_ne_head =>
    intro id
    rw [hnext]
    decide
  case next_tail => exact hnext tail
  case value =>
    intro id hid hhead htail
    rcases hcells id hid with h | h
    · exact absurd h hhead
    · exact absurd h htail
  case leads =>
    intro id hid
    rcases hcells id hid with rfl | rfl
    · exact ⟨[head], hhead⟩
    · exact ⟨[], .stop⟩

namespace Rooted

theorem head_lt (h : s.Rooted) : head < s.cells.size :=
  Nat.lt_trans Nat.zero_lt_one h.tail_lt

/-- The path from behind a cell. -/
theorem leads_next (h : s.Rooted) (id : Nat) : ∃ path, s.Leads (s.next id) path :=
  h.leads _ (h.next_lt id)

theorem length_le (h : s.Rooted) (hid : id < s.cells.size) (hpath : s.Leads id path) :
    path.length ≤ s.cells.size :=
  length_le_of_nodup hpath.nodup fun _ hk => hpath.lt_of_mem hid h.next_lt hk

theorem head_notMem (h : s.Rooted) (hpath : s.Leads (s.next id) path) : head ∉ path := by
  generalize hstart : s.next id = start at hpath
  induction hpath generalizing id with
  | stop => exact List.not_mem_nil
  | step _ _ ih =>
    rw [List.mem_cons, not_or]
    exact ⟨hstart ▸ (h.next_ne_head id).symm, ih rfl⟩

theorem isSome_value (h : s.Rooted) (hpath : s.Leads (s.next id) path) :
    ∀ k ∈ path, (s.value? k).isSome := by
  intro k hk
  refine h.value k (hpath.lt_of_mem (h.next_lt id) h.next_lt hk) ?_ (hpath.ne_tail hk)
  rintro rfl
  exact h.head_notMem hpath hk

/-- An insertion leaves the links of the other cells as they are. -/
theorem next_insertAfter_of_ne (h : s.Rooted) (hid : id < s.cells.size) {value : Node}
    (hk : k < s.cells.size) (hne : k ≠ id) : (s.insertAfter id value).2.next k = s.next k := by
  rw [next_insertAfter hid (h.next_lt id), if_neg (Nat.ne_of_lt hk), if_neg (Ne.symm hne)]

/-- A new cell has the link that the cell before it had, so the tail is reached from both. -/
theorem leads_insertAfter (h : s.Rooted) (hid : id < s.cells.size) (htail : id ≠ tail)
    (value : Node) (hk : k < s.cells.size + 1) :
    ∃ path, (s.insertAfter id value).2.Leads k path := by
  obtain ⟨path, hpath⟩ := h.leads_next id
  have hbehind : (s.insertAfter id value).2.Leads (s.next id) path := by
    refine hpath.congr ?_
    intro m hm
    refine h.next_insertAfter_of_ne hid (hpath.lt_of_mem (h.next_lt id) h.next_lt hm) ?_
    rintro rfl
    exact hpath.notMem htail hm
  have hnew : (s.insertAfter id value).2.Leads s.cells.size (s.cells.size :: path) := by
    refine .step (Nat.ne_of_gt h.tail_lt) ?_
    rwa [next_insertAfter hid (h.next_lt id), if_pos rfl]
  have hthis : (s.insertAfter id value).2.Leads id (id :: s.cells.size :: path) := by
    refine .step htail ?_
    rwa [next_insertAfter hid (h.next_lt id), if_neg (Nat.ne_of_lt hid), if_pos rfl]
  by_cases hsame : k = s.cells.size
  · exact ⟨s.cells.size :: path, hsame ▸ hnew⟩
  · have hlt : k < s.cells.size := by omega
    obtain ⟨old, hleads⟩ := h.leads k hlt
    refine hleads.relink ?_ hthis
    intro m hm
    exact h.next_insertAfter_of_ne hid (hleads.lt_of_mem hlt h.next_lt hm)

theorem insertAfter (h : s.Rooted) (hid : id < s.cells.size) (htail : id ≠ tail) (value : Node) :
    (s.insertAfter id value).2.Rooted where
  tail_lt := by
    rw [size_insertAfter]
    exact Nat.lt_succ_of_lt h.tail_lt
  next_lt k := by
    rw [next_insertAfter hid (h.next_lt id), size_insertAfter]
    split
    · exact Nat.lt_succ_of_lt (h.next_lt id)
    · split
      · exact Nat.lt_succ_self _
      · exact Nat.lt_succ_of_lt (h.next_lt k)
  next_ne_head k := by
    rw [next_insertAfter hid (h.next_lt id)]
    split
    · exact h.next_ne_head id
    · split
      · exact Nat.ne_of_gt h.head_lt
      · exact h.next_ne_head k
  next_tail := by
    rw [h.next_insertAfter_of_ne hid h.tail_lt (Ne.symm htail), h.next_tail]
  value k hk hhead hne := by
    rw [size_insertAfter] at hk
    rw [value?_insertAfter hid (h.next_lt id)]
    split
    · rfl
    · exact h.value k (by omega) hhead hne
  leads k hk := by
    rw [size_insertAfter] at hk
    exact h.leads_insertAfter hid htail value hk

theorem afterRemoval_eq (h : s.Rooted) (hpath : s.Leads (s.next id) path) :
    s.afterRemoval id count = (path.drop count).headD tail := by
  rw [afterRemoval, hpath.walk_eq]
  by_cases hle : count ≤ s.cells.size
  · rw [Nat.min_eq_left hle]
  · have hlength := h.length_le (h.next_lt id) hpath
    rw [List.drop_of_length_le (show path.length ≤ min count s.cells.size by omega),
      List.drop_of_length_le (show path.length ≤ count by omega)]

theorem removed_eq (h : s.Rooted) (hpath : s.Leads (s.next id) path) :
    (s.removeAfter id count).1 = min count path.length := by
  have hlength := h.length_le (h.next_lt id) hpath
  have hwalk : (s.removeAfter id count).1 = (s.walk (s.next id) (min count s.cells.size)).2 := rfl
  rw [hwalk, hpath.walk_eq]
  omega

/-- Behind the cells that are removed comes the tail or a cell that the links led to before. -/
theorem afterRemoval_mem (h : s.Rooted) (hpath : s.Leads (s.next id) path) :
    s.afterRemoval id count = tail ∨ s.afterRemoval id count ∈ path := by
  rw [h.afterRemoval_eq hpath]
  cases hrest : path.drop count with
  | nil => exact .inl rfl
  | cons k rest =>
    refine .inr (List.mem_of_mem_drop (i := count) ?_)
    rw [hrest]
    exact List.mem_cons_self

/-- The cell behind which cells are removed gets a link to what it led to before. -/
theorem leads_removeAfter (h : s.Rooted) (hid : id < s.cells.size) (count : Nat)
    (hk : k < s.cells.size) : ∃ path, (s.removeAfter id count).2.Leads k path := by
  obtain ⟨path, hpath⟩ := h.leads_next id
  have hold : ∀ m, m ≠ id → (s.removeAfter id count).2.next m = s.next m := by
    intro m hne
    rw [next_removeAfter hid, if_neg (Ne.symm hne)]
  have hthis : ∃ rest, (s.removeAfter id count).2.Leads id rest := by
    by_cases htail : id = tail
    · subst htail
      exact ⟨[], .stop⟩
    · refine ⟨id :: path.drop count, .step htail ?_⟩
      rw [next_removeAfter hid, if_pos rfl, h.afterRemoval_eq hpath]
      refine (hpath.drop count).congr ?_
      intro m hm
      refine hold m ?_
      rintro rfl
      exact hpath.notMem htail (List.mem_of_mem_drop hm)
  obtain ⟨rest, hrest⟩ := hthis
  obtain ⟨old, hleads⟩ := h.leads k hk
  exact hleads.relink (fun m _ => hold m) hrest

theorem removeAfter (h : s.Rooted) (hid : id < s.cells.size) (count : Nat) :
    (s.removeAfter id count).2.Rooted where
  tail_lt := by
    rw [size_removeAfter]
    exact h.tail_lt
  next_lt k := by
    obtain ⟨path, hpath⟩ := h.leads_next id
    rw [next_removeAfter hid, size_removeAfter]
    split
    · rcases h.afterRemoval_mem hpath with htail | hmem
      · rw [htail]
        exact h.tail_lt
      · exact hpath.lt_of_mem (h.next_lt id) h.next_lt hmem
    · exact h.next_lt k
  next_ne_head k := by
    obtain ⟨path, hpath⟩ := h.leads_next id
    rw [next_removeAfter hid]
    split
    · rcases h.afterRemoval_mem hpath with htail | hmem
      · rw [htail]
        decide
      · intro hhead
        rw [hhead] at hmem
        exact h.head_notMem hpath hmem
    · exact h.next_ne_head k
  next_tail := by
    rw [next_removeAfter hid]
    split
    · -- nothing comes behind the tail
      rename_i htail
      have hpath : s.Leads (s.next id) [] := by
        rw [htail, h.next_tail]
        exact .stop
      rw [h.afterRemoval_eq hpath, List.drop_nil]
      rfl
    · exact h.next_tail
  value k hk hhead hne := by
    rw [size_removeAfter] at hk
    rw [value?_removeAfter]
    exact h.value k hk hhead hne
  leads k hk := by
    rw [size_removeAfter] at hk
    exact h.leads_removeAfter hid count hk

theorem recount (h : s.Rooted) (len : UInt64) : ({ s with len } : TokenStream).Rooted where
  tail_lt := h.tail_lt
  next_lt := h.next_lt
  next_ne_head := h.next_ne_head
  next_tail := h.next_tail
  value := h.value
  leads id hid := by
    obtain ⟨path, hpath⟩ := h.leads id hid
    exact ⟨path, hpath.congr fun _ _ => rfl⟩

end Rooted

theorem Used.rooted (h : s.Used) : s.Rooted := by
  induction h with
  | empty => exact rooted_empty
  | insert _ hid htail value ih => exact ih.insertAfter hid htail value
  | remove _ hid count ih => exact ih.removeAfter hid count
  | recount _ len ih => exact ih.recount len

/-! ### Going through a stream -/

/-- Going through a stream ends, from wherever it begins: from each cell the links lead to the tail
    and visit no cell twice, so that a walk of any number of steps makes no more than there are
    cells on the way. A removal passes each cell at most once, and so do the functions that read the
    stream, which yield the value of every linked cell. -/
structure Untangled (s : TokenStream) : Prop where
  leads : ∀ id < s.cells.size, ∃ path, s.Leads id path ∧ path.Nodup ∧
    path.length ≤ s.cells.size ∧
    (∀ n, s.walk id n = ((path.drop n).headD tail, min n path.length)) ∧
    ∀ fuel, path.length ≤ fuel → s.cellsFrom fuel id = path
  removes : ∀ id < s.cells.size, ∀ count, ∃ path, s.Leads (s.next id) path ∧
    (s.removeAfter id count).1 = min count path.length ∧
    (s.removeAfter id count).2.next id = (path.drop count).headD tail
  reads : ∃ path, s.Leads (s.next head) path ∧ path.Nodup ∧
    s.toList.map some = path.map s.value? ∧ s.values = s.toList ∧
    ∀ fuel, path.length ≤ fuel → s.valuesFrom fuel (s.next head) = s.toList

theorem map_some_filterMap {f : Nat → Option Node} (h : ∀ k ∈ path, (f k).isSome) :
    (path.filterMap f).map some = path.map f := by
  induction path with
  | nil => rfl
  | cons k path ih =>
    rw [List.forall_mem_cons] at h
    obtain ⟨value, hvalue⟩ := Option.isSome_iff_exists.1 h.1
    rw [List.filterMap_cons_some hvalue, List.map_cons, List.map_cons, ih h.2, hvalue]

theorem Rooted.toList_eq (h : s.Rooted) (hpath : s.Leads (s.next head) path) :
    s.toList = path.filterMap s.value? := by
  rw [toList, hpath.cellsFrom_eq (h.length_le (h.next_lt head) hpath)]

/-- No use of a stream makes a cycle. -/
theorem untangled_of_used (h : s.Used) : s.Untangled := by
  have hroot := h.rooted
  constructor
  case leads =>
    intro id hid
    obtain ⟨path, hpath⟩ := hroot.leads id hid
    exact ⟨path, hpath, hpath.nodup, hroot.length_le hid hpath, hpath.walk_eq,
      fun fuel => hpath.cellsFrom_eq⟩
  case removes =>
    intro id hid count
    obtain ⟨path, hpath⟩ := hroot.leads_next id
    refine ⟨path, hpath, hroot.removed_eq hpath, ?_⟩
    rw [next_removeAfter hid, if_pos rfl, hroot.afterRemoval_eq hpath]
  case reads =>
    obtain ⟨path, hpath⟩ := hroot.leads_next head
    have hvalue := hroot.isSome_value hpath
    have hlist := hroot.toList_eq hpath
    have hread : ∀ fuel, path.length ≤ fuel → s.valuesFrom fuel (s.next head) = s.toList := by
      intro fuel hfuel
      rw [hlist, hpath.valuesFrom_eq hvalue hfuel]
    refine ⟨path, hpath, hpath.nodup, ?_, ?_, hread⟩
    · rw [hlist, map_some_filterMap hvalue]
    · exact hread s.cells.size (hroot.length_le (hroot.next_lt head) hpath)

/-- Two values come and go, a third one comes behind one that is gone, and the count is wrong. -/
def strayed : TokenStream :=
  let filled := (empty.insertAfter head (.text "a")).2
  let filled := (filled.insertAfter 2 (.text "b")).2
  let cleared := (filled.removeAfter head 2).2
  let strayed := (cleared.insertAfter 2 (.text "c")).2
  { (strayed.removeAfter 2 1).2 with len := 7 }

theorem untangled_of_used_strayed :
    strayed.Used ∧ strayed.Untangled ∧ strayed.toList = [] ∧ strayed.next 2 = 3 := by
  have hused : strayed.Used := by
    refine .recount (.remove (.insert (.remove (.insert (.insert .empty ?_ ?_ _) ?_ ?_ _) ?_ 2)
      ?_ ?_ _) ?_ 1) 7 <;> decide
  exact ⟨hused, untangled_of_used hused, by decide, by decide⟩

end TokenStream

end SyntaxHue
