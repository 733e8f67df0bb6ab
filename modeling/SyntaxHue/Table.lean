/-!
# Tables

A `Table` maps names to values and keeps its names in the order in which they were first
entered. Main statements: what was entered last under a name is what is found there, an entry
under a known name moves nothing, entries under new names go to the end, and no name is there
twice.
-/

namespace SyntaxHue

/-- A map from names to values, in order of entry. -/
structure Table (α : Type) where
  entries : List (String × α)

namespace Table

variable {α β : Type}

/-- The table without entries. -/
def empty : Table α := ⟨[]⟩

instance : Inhabited (Table α) := ⟨empty⟩

/-- The value of the first entry under `name`. -/
def find? (name : String) : List (String × α) → Option α
  | [] => none
  | entry :: rest => if entry.1 = name then some entry.2 else find? name rest

/-- The value under `name`. -/
def get? (t : Table α) (name : String) : Option α :=
  find? name t.entries

/-- Whether there is a value under `name`. -/
def contains (t : Table α) (name : String) : Bool :=
  (t.get? name).isSome

/-- The names, in order. -/
def names (t : Table α) : List String :=
  t.entries.map Prod.fst

/-- Replaces the value under `name`, or adds one behind all others. -/
def putEntry (name : String) (value : α) : List (String × α) → List (String × α)
  | [] => [(name, value)]
  | entry :: rest =>
    if entry.1 = name then (name, value) :: rest else entry :: putEntry name value rest

/-- Enters a value under `name`. -/
def put (t : Table α) (name : String) (value : α) : Table α :=
  ⟨putEntry name value t.entries⟩

/-- Enters all of `entries`, in order. -/
def putAll (t : Table α) (entries : List (String × α)) : Table α :=
  entries.foldl (fun t entry => t.put entry.1 entry.2) t

/-- The table with `entries`; of two under one name the last counts. -/
def ofList (entries : List (String × α)) : Table α :=
  empty.putAll entries

/-- Takes out the value under `name`. -/
def erase (t : Table α) (name : String) : Table α :=
  ⟨t.entries.filter (·.1 != name)⟩

/-- The number of names. -/
def size (t : Table α) : Nat :=
  t.entries.length

/-- Changes every value. -/
def map (f : α → β) (t : Table α) : Table β :=
  ⟨t.entries.map fun entry => (entry.1, f entry.2)⟩

theorem find?_putEntry (name key : String) (value : α) (entries : List (String × α)) :
    find? key (putEntry name value entries) =
      if name = key then some value else find? key entries := by
  induction entries with
  | nil => rfl
  | cons entry rest ih =>
    by_cases hother : entry.1 = name
    · by_cases hkey : name = key <;> simp_all [putEntry, find?]
    · by_cases hkey : name = key <;> simp_all [putEntry, find?]

/-- What was entered last under a name is found there; other names keep their values. -/
theorem get?_put (t : Table α) (name key : String) (value : α) :
    (t.put name value).get? key = if name = key then some value else t.get? key :=
  find?_putEntry name key value t.entries

theorem names_putEntry (name : String) (value : α) (entries : List (String × α)) :
    (putEntry name value entries).map Prod.fst =
      if name ∈ entries.map Prod.fst then entries.map Prod.fst
      else entries.map Prod.fst ++ [name] := by
  induction entries with
  | nil => simp [putEntry]
  | cons entry rest ih =>
    obtain ⟨other, old⟩ := entry
    by_cases hother : other = name
    · simp [putEntry, hother]
    · have : ¬ name = other := fun h => hother h.symm
      by_cases hmem : name ∈ rest.map Prod.fst <;> simp_all [putEntry]

/-- A known name stays where it is, a new one goes to the end. -/
theorem names_put (t : Table α) (name : String) (value : α) :
    (t.put name value).names = if name ∈ t.names then t.names else t.names ++ [name] :=
  names_putEntry name value t.entries

theorem nodup_names_put {t : Table α} (h : t.names.Nodup) (name : String) (value : α) :
    (t.put name value).names.Nodup := by
  rw [names_put]
  split
  · exact h
  · rename_i hnew
    refine List.nodup_append.2 ⟨h, by simp, ?_⟩
    intro a ha b hb hab
    simp only [List.mem_singleton] at hb
    exact hnew (hb ▸ hab ▸ ha)

theorem nodup_names_putAll {t : Table α} (h : t.names.Nodup) (entries : List (String × α)) :
    (t.putAll entries).names.Nodup := by
  induction entries generalizing t with
  | nil => exact h
  | cons entry rest ih => exact ih (nodup_names_put h entry.1 entry.2)

/-- No name is there twice, however often it was entered. -/
theorem nodup_names_ofList (entries : List (String × α)) : (ofList entries).names.Nodup := by
  have hempty : (empty : Table α).names.Nodup := List.nodup_nil
  exact nodup_names_putAll hempty entries

theorem mem_of_find? {name : String} {value : α} {entries : List (String × α)}
    (h : find? name entries = some value) : (name, value) ∈ entries := by
  induction entries with
  | nil => simp [find?] at h
  | cons entry rest ih =>
    rw [find?] at h
    split at h
    · rename_i hname
      rw [Option.some.injEq] at h
      rw [← hname, ← h]
      exact List.mem_cons_self
    · exact List.mem_cons_of_mem entry (ih h)

/-- What is found under a name has been entered under it. -/
theorem mem_of_get? {t : Table α} {name : String} {value : α} (h : t.get? name = some value) :
    (name, value) ∈ t.entries :=
  mem_of_find? h

theorem putEntry_of_notMem {name : String} {entries : List (String × α)}
    (h : name ∉ entries.map Prod.fst) (value : α) :
    putEntry name value entries = entries ++ [(name, value)] := by
  induction entries with
  | nil => rfl
  | cons entry rest ih =>
    rw [List.map_cons, List.mem_cons, not_or] at h
    rw [putEntry, if_neg (Ne.symm h.1), ih h.2, List.cons_append]

/-- Entries under new names go behind all others. -/
theorem entries_putAll (t : Table α) {entries : List (String × α)}
    (h : (t.entries ++ entries).map Prod.fst |>.Nodup) :
    (t.putAll entries).entries = t.entries ++ entries := by
  induction entries generalizing t with
  | nil => exact (List.append_nil _).symm
  | cons entry rest ih =>
    have hnew : entry.1 ∉ t.entries.map Prod.fst := by
      rw [List.map_append, List.nodup_append] at h
      exact fun hmem => h.2.2 _ hmem _ (by simp) rfl
    have hput : (t.put entry.1 entry.2).entries = t.entries ++ [entry] :=
      putEntry_of_notMem hnew entry.2
    rw [putAll, List.foldl_cons]
    rw [List.append_cons, ← hput] at h ⊢
    exact ih _ h

theorem mem_putEntry {name : String} {value : α} {entry : String × α}
    {entries : List (String × α)} (h : entry ∈ putEntry name value entries) :
    entry = (name, value) ∨ entry ∈ entries := by
  induction entries with
  | nil => exact .inl (List.mem_singleton.1 h)
  | cons other rest ih =>
    rw [putEntry] at h
    split at h
    · exact (List.mem_cons.1 h).imp_right (List.mem_cons_of_mem other)
    · rcases List.mem_cons.1 h with rfl | hrest
      · exact .inr List.mem_cons_self
      · exact (ih hrest).imp_right (List.mem_cons_of_mem other)

/-- Every entry was there before or has been entered. -/
theorem mem_putAll {t : Table α} {entry : String × α} {entries : List (String × α)}
    (h : entry ∈ (t.putAll entries).entries) : entry ∈ t.entries ∨ entry ∈ entries := by
  induction entries generalizing t with
  | nil => exact .inl h
  | cons other rest ih =>
    rcases ih h with hput | hrest
    · rcases mem_putEntry hput with rfl | hentry
      · exact .inr List.mem_cons_self
      · exact .inl hentry
    · exact .inr (List.mem_cons_of_mem other hrest)

/-- Entries under different names are all there, in order. -/
theorem entries_ofList {entries : List (String × α)} (h : (entries.map Prod.fst).Nodup) :
    (ofList entries).entries = entries :=
  entries_putAll empty h

end Table

end SyntaxHue
