import SyntaxHue.Proofs.Grammar.Faults
import SyntaxHue.Proofs.Grammar.Update

/-!
# Rules that are inserted before a kind

Rules that are inserted stand right before the kind, in the order of their definition, and nowhere
else: those of their kinds that the grammar had, before or behind that place, are gone, and the
other kinds keep their order and their patterns. To insert the same rules once more moves nothing.
-/

namespace SyntaxHue

namespace Table

variable {α : Type} {t : Table α} {name : String} {value : α}

/-- What is entered under a name is found, if no other value is. -/
theorem get?_of_mem (h : t.names.Nodup) (hmem : (name, value) ∈ t.entries) :
    t.get? name = some value := by
  obtain ⟨entries⟩ := t
  rw [get?]
  induction entries with
  | nil => contradiction
  | cons entry rest ih =>
    rw [names, List.map_cons, List.nodup_cons] at h
    rw [find?]
    rcases List.mem_cons.1 hmem with rfl | hrest
    · rw [if_pos rfl]
    · have hne : entry.1 ≠ name := by
        rintro rfl
        exact h.1 (List.mem_map.2 ⟨_, hrest, rfl⟩)
      rw [if_neg hne]
      exact ih h.2 hrest

theorem get?_eq_some (h : t.names.Nodup) : t.get? name = some value ↔ (name, value) ∈ t.entries :=
  ⟨mem_of_get?, get?_of_mem h⟩

theorem contains_eq_true : t.contains name = true ↔ name ∈ t.names := by
  refine ⟨fun h => ?_, contains_of_mem⟩
  obtain ⟨value, hvalue⟩ := Option.isSome_iff_exists.1 h
  exact List.mem_map_of_mem (mem_of_get? hvalue)

theorem putAll_append (t : Table α) (first others : List (String × α)) :
    t.putAll (first ++ others) = (t.putAll first).putAll others :=
  List.foldl_append

end Table

theorem GrammarDef.inner_eq (d : GrammarDef) : d.inner = RuleDef.inner d.rules := by
  cases d
  rfl

namespace Store

/-! ### The order of the kinds -/

/-- The kinds with those of `inserted` right before `before`, and nowhere else. -/
def spliceKinds (before : String) (inserted kinds : List String) : List String :=
  kinds.flatMap fun kind =>
    (if kind = before then inserted else []) ++ (if kind ∈ inserted then [] else [kind])

theorem names_spliceBefore (before : String) (inserted rules : Table Rule) :
    (spliceBefore before inserted rules).names =
      spliceKinds before inserted.names rules.names := by
  rw [Table.names, spliceBefore, spliceKinds, Table.names, Table.names, List.map_flatMap,
    List.flatMap_map]
  congr 1
  funext entry
  rw [List.map_append]
  congr 1
  · split <;> rfl
  · have hmem : inserted.contains entry.1 = true ↔ entry.1 ∈ inserted.entries.map Prod.fst :=
      Table.contains_eq_true
    by_cases hentry : inserted.contains entry.1 = true
    · rw [if_pos hentry, if_pos (hmem.1 hentry), List.map_nil]
    · rw [if_neg hentry, if_neg (mt hmem.2 hentry), List.map_singleton]

variable {before : String} {inserted kinds front back : List String}

/-- Away from the place of the insertion, what is inserted is taken out. -/
theorem spliceKinds_of_notMem (h : before ∉ kinds) :
    spliceKinds before inserted kinds = kinds.filter (· ∉ inserted) := by
  induction kinds with
  | nil => rfl
  | cons kind kinds ih =>
    rw [List.mem_cons, not_or] at h
    have hrest := ih h.2
    rw [spliceKinds] at hrest ⊢
    rw [List.flatMap_cons, hrest, if_neg (Ne.symm h.1), List.nil_append, List.filter_cons]
    by_cases hkind : kind ∈ inserted <;> simp [hkind]

theorem spliceKinds_of_parts (hfront : before ∉ front) (hback : before ∉ back) :
    spliceKinds before inserted (front ++ before :: back) =
      front.filter (· ∉ inserted) ++ inserted ++ (before :: back).filter (· ∉ inserted) := by
  have hparts : spliceKinds before inserted (front ++ before :: back) =
      spliceKinds before inserted front ++
        ((inserted ++ if before ∈ inserted then [] else [before]) ++
          spliceKinds before inserted back) := by
    rw [spliceKinds, List.flatMap_append, List.flatMap_cons, if_pos rfl]
    rfl
  rw [hparts, spliceKinds_of_notMem hfront, spliceKinds_of_notMem hback, List.filter_cons]
  by_cases hbefore : before ∈ inserted <;> simp [hbefore]

theorem filter_filter_notMem (inserted kinds : List String) :
    (kinds.filter (· ∉ inserted)).filter (· ∉ inserted) = kinds.filter (· ∉ inserted) := by
  rw [List.filter_filter]
  simp

theorem filter_notMem_of_subset (h : kinds ⊆ inserted) : kinds.filter (· ∉ inserted) = [] := by
  rw [List.filter_eq_nil_iff]
  intro kind hkind
  simp [h hkind]

/-- To insert the same kinds once more moves nothing. -/
theorem spliceKinds_again (hinserted : inserted.Nodup) (hfront : before ∉ front)
    (hback : before ∉ back) :
    let once := spliceKinds before inserted (front ++ before :: back)
    spliceKinds before inserted once = once := by
  intro once
  have honce : once = front.filter (· ∉ inserted) ++ inserted ++
      (before :: back).filter (· ∉ inserted) := spliceKinds_of_parts hfront hback
  have hfront' : before ∉ front.filter (· ∉ inserted) :=
    fun hmem => hfront (List.mem_of_mem_filter hmem)
  have hback' : before ∉ back.filter (· ∉ inserted) :=
    fun hmem => hback (List.mem_of_mem_filter hmem)
  by_cases hbefore : before ∈ inserted
  · -- the kind is one of those that were inserted, somewhere among them
    obtain ⟨first, last, hsplit⟩ := List.append_of_mem hbefore
    have hapart := hsplit ▸ hinserted
    rw [List.nodup_middle, List.nodup_cons, List.mem_append, not_or] at hapart
    have hfirst : first ⊆ inserted := fun kind hkind => by simp [hsplit, hkind]
    have hlast : last ⊆ inserted := fun kind hkind => by simp [hsplit, hkind]
    have hmove : ∀ us vs : List String,
        us ++ inserted ++ vs = us ++ first ++ before :: (last ++ vs) := by
      intro us vs
      simp [hsplit]
    rw [List.filter_cons_of_neg (by simpa using hbefore)] at honce
    rw [honce, hmove, spliceKinds_of_parts, List.filter_append,
      List.filter_cons_of_neg (by simpa using hbefore), List.filter_append,
      filter_filter_notMem, filter_filter_notMem, filter_notMem_of_subset hfirst,
      filter_notMem_of_subset hlast, List.append_nil, List.nil_append, hmove]
    · exact List.not_mem_append hfront' hapart.1.1
    · exact List.not_mem_append hapart.1.2 hback'
  · rw [List.filter_cons_of_pos (by simpa using hbefore)] at honce
    rw [honce, spliceKinds_of_parts (List.not_mem_append hfront' hbefore) hback',
      List.filter_append, List.filter_cons_of_pos (by simpa using hbefore),
      filter_filter_notMem, filter_filter_notMem, filter_notMem_of_subset (List.Subset.refl _),
      List.append_nil]

/-! ### The rules -/

/-- The rules with `inserted` before a kind, as they are entered one by one into a new table. -/
def enterBefore (before : String) (inserted rules : Table Rule) : Table Rule :=
  rules.entries.foldl (fun rebuilt entry =>
    let rebuilt := if entry.1 = before then rebuilt.putAll inserted.entries else rebuilt
    if inserted.contains entry.1 then rebuilt else rebuilt.put entry.1 entry.2) .empty

variable {added rules : Table Rule} {kind : String}

/-- No name is entered twice, so that each entry stays where it was entered. -/
theorem enterBefore_eq (hadded : added.names.Nodup) (hrules : rules.names.Nodup) :
    enterBefore before added rules = spliceBefore before added rules := by
  have hwalk : ∀ (entries : List (String × Rule)) (t : Table Rule),
      entries.foldl (fun rebuilt entry =>
        let rebuilt := if entry.1 = before then rebuilt.putAll added.entries else rebuilt
        if added.contains entry.1 then rebuilt else rebuilt.put entry.1 entry.2) t =
      t.putAll (spliceBefore before added ⟨entries⟩).entries := by
    intro entries
    induction entries with
    | nil => exact fun t => rfl
    | cons entry entries ih =>
      intro t
      have hcons : (spliceBefore before added ⟨entry :: entries⟩).entries =
          ((if entry.1 = before then added.entries else []) ++
            (if added.contains entry.1 then [] else [entry])) ++
              (spliceBefore before added ⟨entries⟩).entries := by
        simp only [spliceBefore, List.flatMap_cons]
      rw [List.foldl_cons, ih, hcons, Table.putAll_append, Table.putAll_append]
      split <;> split <;> rfl
  have hnodup : (spliceBefore before added rules).names.Nodup := nodup_spliceBefore hadded hrules
  rw [enterBefore, hwalk]
  exact congrArg Table.mk (Table.entries_ofList hnodup)

theorem get?_spliceBefore_of_mem (hadded : added.names.Nodup) (hrules : rules.names.Nodup)
    (hbefore : before ∈ rules.names) {rule : Rule} (h : (kind, rule) ∈ added.entries) :
    (spliceBefore before added rules).get? kind = some rule := by
  obtain ⟨entry, hentry, rfl⟩ := List.mem_map.1 hbefore
  refine Table.get?_of_mem (nodup_spliceBefore hadded hrules) ?_
  refine List.mem_flatMap.2 ⟨entry, hentry, ?_⟩
  rw [if_pos rfl]
  exact List.mem_append_left _ h

theorem get?_spliceBefore_of_notMem (hadded : added.names.Nodup) (hrules : rules.names.Nodup)
    (h : kind ∉ added.names) :
    (spliceBefore before added rules).get? kind = rules.get? kind := by
  ext rule
  rw [Table.get?_eq_some (nodup_spliceBefore hadded hrules), Table.get?_eq_some hrules]
  constructor
  · intro hmem
    exact (mem_spliceBefore hmem).resolve_left fun hin => h (List.mem_map.2 ⟨_, hin, rfl⟩)
  · intro hmem
    refine List.mem_flatMap.2 ⟨_, hmem, List.mem_append_right _ ?_⟩
    rw [if_neg (mt Table.contains_eq_true.1 h)]
    exact List.mem_singleton_self _

/-! ### Inserting -/

variable {s t : Store} {target : GrammarId} {d : GrammarDef}

/-- `t` is `s` with the kinds of `d` right before a kind of the grammar `target`, whose kinds were
    `front ++ before :: back`. -/
structure Splices (s : Store) (target : GrammarId) (front : List String) (before : String)
    (back : List String) (d : GrammarDef) (t : Store) : Prop where
  kinds : (t.rules target).names =
    front.filter (· ∉ d.kinds) ++ d.kinds ++ (before :: back).filter (· ∉ d.kinds)
  inserted : ∃ compiled, RuleDef.StoredFrom t.slots s.get? s.slots.size d.rules compiled ∧
    ∀ entry ∈ compiled, (t.rules target).get? entry.1 = some entry.2
  kept : ∀ kind, kind ∉ d.kinds → (t.rules target).get? kind = (s.rules target).get? kind
  rest : (t.grammar? target).map Grammar.rest = (s.grammar? target).map Grammar.rest
  languages : t.languages = s.languages
  others : ∀ id : GrammarId, id.index < s.slots.size → id ≠ target → t.grammar? id = s.grammar? id
  size : t.slots.size = s.slots.size + d.inner.length

theorem exists_insertBefore (hbefore : (s.rules target).contains before)
    (hfaults : RuleDef.faults s.contains d.rules = []) :
    ∃ t, s.insertBefore target before d = .ok t := by
  obtain ⟨out, hout⟩ := (s.compiler.rules_reports d.rules #[]).exists_ok_iff.2 hfaults
  rw [insertBefore, hbefore, hout]
  exact ⟨_, rfl⟩

theorem nodup_parts (hs : s.Closed) (hkinds : (s.rules target).names = front ++ before :: back) :
    before ∉ front ∧ before ∉ back := by
  have hnodup := (hs.rules target).1
  rw [hkinds, List.nodup_middle, List.nodup_cons, List.mem_append, not_or] at hnodup
  exact hnodup.1

namespace Rebuilds

variable {compiled : List (String × Rule)} {pending : Array Grammar}

theorem kinds_compiled (h : s.Rebuilds target before d compiled pending t) :
    compiled.map Prod.fst = d.kinds :=
  Compiler.kinds_of_rules h.compiled_eq

/-- What the grammar has after the insertion, if no kind is defined twice. -/
theorem rules_eq (h : s.Rebuilds target before d compiled pending t) (hs : s.Closed)
    (hd : d.kinds.Nodup) : t.rules target = spliceBefore before ⟨compiled⟩ (s.rules target) := by
  obtain ⟨g, hg, ht⟩ := (h.only hs).rebuilt
  have hcompiled : Table.ofList compiled = ⟨compiled⟩ :=
    congrArg Table.mk (Table.entries_ofList (h.kinds_compiled ▸ hd))
  rw [rules_of_grammar? ht, rules_of_grammar? hg, hcompiled]

theorem names_eq (h : s.Rebuilds target before d compiled pending t) (hs : s.Closed)
    (hd : d.kinds.Nodup) :
    (t.rules target).names = spliceKinds before d.kinds (s.rules target).names := by
  rw [h.rules_eq hs hd, names_spliceBefore, ← h.kinds_compiled]
  rfl

theorem splices (h : s.Rebuilds target before d compiled pending t) (hs : s.Closed)
    (hd : d.Distinct) (hkinds : (s.rules target).names = front ++ before :: back) :
    s.Splices target front before back d t := by
  obtain ⟨hown, hinner⟩ := List.forall_mem_cons.1 hd
  obtain ⟨hfront, hback⟩ := nodup_parts hs hkinds
  have honly := h.only hs
  have hnames : (Table.mk compiled).names = d.kinds := h.kinds_compiled
  have hcompiled : (Table.mk compiled).names.Nodup := hnames ▸ hown
  have hbefore : before ∈ (s.rules target).names := by simp [hkinds]
  rw [d.inner_eq] at hinner
  have hlays := Compiler.rules_lays hinner h.compiled_eq
  have hsize : pending.size = d.inner.length := by simpa [d.inner_eq] using hlays.size
  -- the slots of what is defined inside are behind those of the store
  have hslots : ∀ k, t.slots[s.slots.size + k]? = pending[k]? := by
    intro k
    have hne : target.index ≠ s.slots.size + k := by have := h.target_lt; omega
    rw [h.eq, Array.getElem?_modify, if_neg hne, Array.getElem?_append_right (Nat.le_add_right _ _),
      Nat.add_sub_cancel_left]
  have hrules := h.rules_eq hs hown
  constructor
  · rw [h.names_eq hs hown, hkinds, spliceKinds_of_parts hfront hback]
  · refine ⟨compiled, hlays.stored t.slots fun k _ _ => hslots k, fun entry hentry => ?_⟩
    rw [hrules]
    exact get?_spliceBefore_of_mem hcompiled (hs.rules target).1 hbefore hentry
  · intro kind hkind
    rw [hrules]
    exact get?_spliceBefore_of_notMem hcompiled (hs.rules target).1 (hnames ▸ hkind)
  · obtain ⟨g, hg, ht⟩ := honly.rebuilt
    rw [hg, ht]
    rfl
  · exact honly.languages
  · exact honly.others
  · rw [h.eq, Array.size_modify, Array.size_append, hsize]

end Rebuilds

/-- Rules are inserted exactly: they are right before the kind and nowhere else, each with the
    patterns of its definition, the other kinds have what they had and are in the order in which
    they were, and nothing else in the store changes but for the slots of what is defined inside.
    To insert the rules once more before the kind moves nothing. -/
theorem insertBefore_splices (hs : s.Reachable) (hd : d.Distinct)
    (hfaults : RuleDef.faults s.contains d.rules = [])
    (hkinds : (s.rules target).names = front ++ before :: back) :
    ∃ t, s.insertBefore target before d = .ok t ∧ s.Splices target front before back d t ∧
      ∃ u, t.insertBefore target before d = .ok u ∧
        (u.rules target).names = (t.rules target).names := by
  have hclosed := hs.closed
  have hown : d.kinds.Nodup := hd d List.mem_cons_self
  obtain ⟨hfront, hback⟩ := nodup_parts hclosed hkinds
  have hbefore : (s.rules target).contains before := Table.contains_of_mem (by simp [hkinds])
  obtain ⟨t, ht⟩ := exists_insertBefore hbefore hfaults
  have htclosed := hclosed.insertBefore ht
  obtain ⟨compiled, pending, hrebuilds⟩ := hclosed.rebuilds_of_insertBefore ht
  have hsplices := hrebuilds.splices hclosed hd hkinds
  have hagain : (t.rules target).contains before := by
    refine Table.contains_of_mem ?_
    rw [hsplices.kinds]
    by_cases hin : before ∈ d.kinds <;> simp [hin]
  have hcontains : t.contains = s.contains := by
    funext name
    rw [contains, contains, hsplices.languages]
  obtain ⟨u, hu⟩ := exists_insertBefore hagain (hcontains ▸ hfaults)
  obtain ⟨compiled', pending', hrebuilds'⟩ := htclosed.rebuilds_of_insertBefore hu
  refine ⟨t, ht, hsplices, u, hu, ?_⟩
  rw [hrebuilds'.names_eq htclosed hown, hrebuilds.names_eq hclosed hown, hkinds]
  exact spliceKinds_again hown hfront hback

/-- Words with the digits in them, and other rules for two kinds of `extended`. -/
def words : GrammarDef :=
  .ofRules [
    .mk "word" [.mk { source := "\\w+" } (.grammar (.ofRules [.mk "digit" [.plain "\\d"]] none))],
    .mk "comma" [.plain ", "],
    .mk "list" [.plain "[()]"]] none

/-- One of the kinds that are inserted is in front of the place and one behind it. -/
theorem insertBefore_splices_extended :
    (extended.Reachable ∧ words.Distinct ∧ RuleDef.faults extended.contains words.rules = [] ∧
      (extended.rules ⟨1⟩).names = ["list"] ++ "nothing" :: ["comma"]) ∧
    ∃ t, extended.insertBefore ⟨1⟩ "nothing" words = .ok t ∧
      extended.Splices ⟨1⟩ ["list"] "nothing" ["comma"] words t ∧
      ∃ u, t.insertBefore ⟨1⟩ "nothing" words = .ok u ∧
        (u.rules ⟨1⟩).names = (t.rules ⟨1⟩).names := by
  have hdistinct : words.Distinct := by
    refine GrammarDef.distinct_ofRules ?_ _
    decide +kernel
  have hfaults : RuleDef.faults extended.contains words.rules = [] := by decide +kernel
  have hkinds : (extended.rules ⟨1⟩).names = ["list"] ++ "nothing" :: ["comma"] := by decide +kernel
  exact ⟨⟨reachable_extended, hdistinct, hfaults, hkinds⟩,
    insertBefore_splices reachable_extended hdistinct hfaults hkinds⟩

end Store

end SyntaxHue
