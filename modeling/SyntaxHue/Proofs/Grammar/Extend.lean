import SyntaxHue.Proofs.Grammar.Insert

/-!
# Grammars that extend another

An extension has the kinds of its base, in their order, and those of its own that the base lacks:
behind all others, or right before one of them. Its own kinds have the patterns of its definition,
whether the base has the kind or not, and all others have what they have in the base. The base stays
as it is, even if the extension takes over its name.
-/

namespace SyntaxHue

namespace Table

variable {α : Type} {t : Table α} {name : String} {value : α} {entries : List (String × α)}

theorem putAll_cons (t : Table α) (entry : String × α) (rest : List (String × α)) :
    t.putAll (entry :: rest) = (t.put entry.1 entry.2).putAll rest :=
  rfl

theorem get?_cons (entry : String × α) (rest : List (String × α)) (name : String) :
    (Table.mk (entry :: rest)).get? name =
      if entry.1 = name then some entry.2 else (Table.mk rest).get? name :=
  rfl

theorem get?_eq_none (h : name ∉ t.names) : t.get? name = none := by
  rw [← Option.not_isSome_iff_eq_none]
  exact mt contains_eq_true.1 h

/-- What has been entered is found, and under other names what was there before. -/
theorem get?_putAll (h : (entries.map Prod.fst).Nodup) :
    (t.putAll entries).get? name = ((Table.mk entries).get? name).or (t.get? name) := by
  induction entries generalizing t with
  | nil => rfl
  | cons entry rest ih =>
    rw [List.map_cons, List.nodup_cons] at h
    rw [putAll_cons, ih h.2, get?_put, get?_cons]
    by_cases hname : entry.1 = name
    · -- the name does not come again
      have hrest : (Table.mk rest).get? name = none := get?_eq_none (hname ▸ h.1)
      simp [hname, hrest]
    · simp [hname]

/-- Known names stay where they are, and new ones go behind them, in order. -/
theorem names_putAll (h : (entries.map Prod.fst).Nodup) :
    (t.putAll entries).names = t.names ++ (entries.map Prod.fst).filter (· ∉ t.names) := by
  induction entries generalizing t with
  | nil => simp [putAll]
  | cons entry rest ih =>
    rw [List.map_cons, List.nodup_cons] at h
    rw [putAll_cons, ih h.2, names_put, List.map_cons]
    by_cases hknown : entry.1 ∈ t.names
    · simp [hknown]
    · -- the new name is not one of those that come after it
      have hfilter : (rest.map Prod.fst).filter (· ∉ t.names ++ [entry.1]) =
          (rest.map Prod.fst).filter (· ∉ t.names) := by
        apply List.filter_congr
        intro other hother
        have hne : other ≠ entry.1 := by
          intro heq
          exact h.1 (heq ▸ hother)
        simp [hne]
      rw [if_neg hknown, hfilter, List.filter_cons_of_pos (by simpa using hknown),
        List.append_assoc]
      rfl

theorem names_putAll_of_subset (h : (entries.map Prod.fst).Nodup)
    (hsub : ∀ name ∈ entries.map Prod.fst, name ∈ t.names) :
    (t.putAll entries).names = t.names := by
  have hnone : (entries.map Prod.fst).filter (· ∉ t.names) = [] := by
    rw [List.filter_eq_nil_iff]
    intro name hname
    simp [hsub name hname]
  rw [names_putAll h, hnone, List.append_nil]

theorem contains_eq_decide (t : Table α) (name : String) :
    t.contains name = decide (name ∈ t.names) := by
  rw [Bool.eq_iff_iff, contains_eq_true, decide_eq_true_eq]

theorem names_filter (t : Table α) (p : String → Bool) :
    (Table.mk (t.entries.filter fun entry => p entry.1)).names = t.names.filter p :=
  List.filter_map.symm

theorem get?_filter (t : Table α) (p : String → Bool) (name : String) :
    (Table.mk (t.entries.filter fun entry => p entry.1)).get? name =
      if p name then t.get? name else none := by
  obtain ⟨entries⟩ := t
  induction entries with
  | nil => simp [get?, find?]
  | cons entry rest ih =>
    rw [List.filter_cons]
    by_cases hname : entry.1 = name
    · by_cases hp : p name <;> simp_all [get?_cons]
    · by_cases hp : p entry.1 <;> simp [hp, get?_cons, hname, ih]

end Table

namespace Store

theorem get?_spliceBefore {before kind : String} {inserted rules : Table Rule}
    (hinserted : inserted.names.Nodup) (hrules : rules.names.Nodup)
    (hbefore : before ∈ rules.names) :
    (spliceBefore before inserted rules).get? kind =
      (inserted.get? kind).or (rules.get? kind) := by
  cases hkind : inserted.get? kind with
  | some rule => exact get?_spliceBefore_of_mem hinserted hrules hbefore (Table.mem_of_get? hkind)
  | none =>
    apply get?_spliceBefore_of_notMem hinserted hrules
    intro hmem
    have hsome := Table.contains_of_mem hmem
    rw [Table.contains, hkind] at hsome
    contradiction

/-! ### Rules that are merged -/

variable {base overrides : Table Rule} {placement : Placement} {kind : String} {rule : Rule}

/-- The overrides of kinds that the base has. -/
def known (base overrides : Table Rule) : Table Rule :=
  ⟨overrides.entries.filter fun entry => base.contains entry.1⟩

/-- The overrides of kinds that the base lacks. -/
def added (base overrides : Table Rule) : Table Rule :=
  ⟨overrides.entries.filter fun entry => !base.contains entry.1⟩

theorem names_known : (known base overrides).names = overrides.names.filter (· ∈ base.names) := by
  rw [known, Table.names_filter overrides base.contains]
  apply List.filter_congr
  intro kind _
  exact base.contains_eq_decide kind

theorem names_added : (added base overrides).names = overrides.names.filter (· ∉ base.names) := by
  rw [added, Table.names_filter overrides fun kind => !base.contains kind]
  simp only [Table.contains_eq_decide, decide_not]

theorem get?_known :
    (known base overrides).get? kind =
      if base.contains kind then overrides.get? kind else none :=
  Table.get?_filter overrides base.contains kind

theorem get?_added :
    (added base overrides).get? kind =
      if base.contains kind then none else overrides.get? kind := by
  rw [added, Table.get?_filter overrides fun kind => !base.contains kind]
  cases base.contains kind <;> rfl

theorem notMem_added (h : kind ∈ base.names) : kind ∉ (added base overrides).names := by
  simp [names_added, h]

/-- The base with the overrides of kinds that it has. -/
def replaced (base overrides : Table Rule) : Table Rule :=
  base.putAll (known base overrides).entries

theorem mergeRules_atEnd :
    mergeRules base overrides .atEnd =
      (replaced base overrides).putAll (added base overrides).entries :=
  rfl

theorem mergeRules_before :
    mergeRules base overrides (.before kind) =
      spliceBefore kind (added base overrides) (replaced base overrides) :=
  rfl

section

variable (hoverrides : overrides.names.Nodup)

include hoverrides

theorem nodup_known : (known base overrides).names.Nodup :=
  Table.nodup_names_filter hoverrides _

theorem nodup_added : (added base overrides).names.Nodup :=
  Table.nodup_names_filter hoverrides _

theorem names_replaced : (replaced base overrides).names = base.names := by
  apply Table.names_putAll_of_subset (nodup_known hoverrides)
  intro name hname
  have hmem : name ∈ (known base overrides).names := hname
  rw [names_known, List.mem_filter] at hmem
  simpa using hmem.2

end

/-- The overrides as they are entered one by one: that of a kind which the rules have in its place,
    and any other into a table of its own. -/
def enterOverrides (base : Table Rule) (overrides : List (String × Rule)) :
    Table Rule × Table Rule :=
  overrides.foldl (fun (rules, beside) entry =>
    if rules.contains entry.1 then (rules.put entry.1 entry.2, beside)
    else (rules, beside.put entry.1 entry.2)) (base, .empty)

/-- To enter an override changes nothing about which kinds the rules have, so that the overrides can
    be told apart beforehand. -/
theorem enterOverrides_eq (hoverrides : overrides.names.Nodup) :
    enterOverrides base overrides.entries = (replaced base overrides, added base overrides) := by
  have hwalk : ∀ (entries : List (String × Rule)) (rules beside : Table Rule),
      entries.foldl (fun (rules, beside) entry =>
        if rules.contains entry.1 then (rules.put entry.1 entry.2, beside)
        else (rules, beside.put entry.1 entry.2)) (rules, beside) =
      (rules.putAll (known rules ⟨entries⟩).entries,
        beside.putAll (added rules ⟨entries⟩).entries) := by
    intro entries
    induction entries with
    | nil =>
      intro rules beside
      rfl
    | cons entry entries ih =>
      intro rules beside
      simp only [List.foldl_cons, known, added, List.filter_cons]
      by_cases hknown : rules.contains entry.1 = true
      · have hsame : (rules.put entry.1 entry.2).contains = rules.contains := by
          funext kind
          have hmem : entry.1 ∈ rules.names := Table.contains_eq_true.1 hknown
          rw [Table.contains_eq_decide, Table.contains_eq_decide, Table.names_put, if_pos hmem]
        simp [hknown, ih, known, added, hsame, Table.putAll_cons]
      · simp [hknown, ih, known, added, Table.putAll_cons]
  rw [enterOverrides, hwalk, replaced]
  congr 1
  exact congrArg Table.mk (Table.entries_ofList (nodup_added hoverrides))

/-- Where kinds go that the base lacks. -/
inductive Placed (base added : List String) : Placement → List String → Prop where
  | atEnd : Placed base added .atEnd (base ++ added)
  | before {front back : List String} {kind : String} : base = front ++ kind :: back →
      Placed base added (.before kind) (front ++ added ++ kind :: back)

section

variable (hbase : base.names.Nodup) (hoverrides : overrides.names.Nodup)
  (hplace : ∀ kind, placement = .before kind → kind ∈ base.names)

include hbase hoverrides

include hplace in
/-- The kinds of the base keep their order, and those that it lacks are together in one place. -/
theorem placed_mergeRules :
    Placed base.names (overrides.names.filter (· ∉ base.names)) placement
      (mergeRules base overrides placement).names := by
  have hadded : (added base overrides).names.Nodup := nodup_added hoverrides
  have hmerged : (replaced base overrides).names = base.names := names_replaced hoverrides
  rw [← names_added]
  cases placement with
  | atEnd =>
    have hnew : (added base overrides).names.filter (· ∉ base.names) =
        (added base overrides).names := by
      rw [names_added, filter_filter_notMem]
    have hall : (mergeRules base overrides .atEnd).names =
        base.names ++ (added base overrides).names := by
      rw [mergeRules_atEnd, Table.names_putAll hadded, hmerged]
      exact congrArg _ hnew
    rw [hall]
    exact .atEnd
  | before kind =>
    obtain ⟨front, back, hparts⟩ := List.append_of_mem (hplace kind rfl)
    have hnodup := hbase
    rw [hparts, List.nodup_middle, List.nodup_cons, List.mem_append, not_or] at hnodup
    have hkeep : ∀ kinds : List String, kinds ⊆ base.names →
        kinds.filter (· ∉ (added base overrides).names) = kinds := by
      intro kinds hkinds
      rw [List.filter_eq_self]
      intro kind hkind
      simpa using notMem_added (hkinds hkind)
    have hfront : front ⊆ base.names := by simp [hparts]
    have hback : kind :: back ⊆ base.names := by simp [hparts]
    have hall : (mergeRules base overrides (.before kind)).names =
        front ++ (added base overrides).names ++ kind :: back := by
      rw [mergeRules_before, names_spliceBefore, hmerged]
      nth_rewrite 1 [hparts]
      rw [spliceKinds_of_parts hnodup.1.1 hnodup.1.2, hkeep front hfront, hkeep _ hback]
    rw [hall]
    exact .before hparts

include hplace in
/-- A kind that is overridden has the patterns of the override, wherever it stands, and any other
    kind those of the base. -/
theorem get?_mergeRules :
    (mergeRules base overrides placement).get? kind =
      (overrides.get? kind).or (base.get? kind) := by
  have hadded : (added base overrides).names.Nodup := nodup_added hoverrides
  have hnames : (replaced base overrides).names = base.names := names_replaced hoverrides
  have hreplaced : (replaced base overrides).get? kind =
      ((known base overrides).get? kind).or (base.get? kind) :=
    Table.get?_putAll (nodup_known hoverrides)
  have hmerged : (mergeRules base overrides placement).get? kind =
      ((added base overrides).get? kind).or ((replaced base overrides).get? kind) := by
    cases placement with
    | atEnd => exact Table.get?_putAll hadded
    | before place =>
      have hmem : place ∈ (replaced base overrides).names := hnames ▸ hplace place rfl
      exact get?_spliceBefore hadded (hnames ▸ hbase) hmem
  rw [hmerged, hreplaced, get?_known, get?_added]
  cases base.contains kind <;> simp

end

/-! ### Extending -/

variable {s t : Store} {language name : String} {root id : GrammarId} {d : GrammarDef}

/-- `t` is `s` with `language` for `root`, which is an extension of the grammar `base` by `d`. -/
structure Extends (s : Store) (language : String) (base : GrammarId) (d : GrammarDef)
    (placement : Placement) (root : GrammarId) (t : Store) : Prop where
  root_index : root.index = s.slots.size
  kinds : Placed (s.rules base).names (d.kinds.filter (· ∉ (s.rules base).names)) placement
    (t.rules root).names
  overridden : ∃ compiled,
    RuleDef.StoredFrom t.slots t.get? (root.index + 1) d.rules compiled ∧
      ∀ entry ∈ compiled, (t.rules root).get? entry.1 = some entry.2
  kept : ∀ kind, kind ∉ d.kinds → (t.rules root).get? kind = (s.rules base).get? kind
  rest_own : ∀ name, d.rest = some name → ∃ next, t.get? name = some next ∧
    (t.grammar? root).bind Grammar.rest = some next
  rest_base : d.rest = none →
    (t.grammar? root).bind Grammar.rest = (s.grammar? base).bind Grammar.rest
  base_eq : t.grammar? base = s.grammar? base
  others : ∀ id : GrammarId, id.index < s.slots.size → t.grammar? id = s.grammar? id
  languages : t.languages = s.languages.put language root
  size : t.slots.size = s.slots.size + (1 + d.inner.length)

theorem rest_of_restFrom {c : Compiler} {base next : Option GrammarId}
    {own : Option String} (h : Work.restFrom c base own = .ok next) :
    (∀ name, own = some name → ∃ id, c.resolve name = some id ∧ next = some id) ∧
      (own = none → next = base) := by
  cases own with
  | none =>
    rw [Work.restFrom, Except.ok.injEq] at h
    simp [h]
  | some name =>
    have hrest : c.rest (some name) = .ok next := h
    have hresolve := Compiler.resolve_of_rest hrest
    cases next with
    | none => simp at hresolve
    | some id =>
      simp only [Option.map_some, Option.some.injEq] at hresolve
      simp [hresolve]

/-- What an extension is compiled against is what the names stand for afterwards. -/
theorem resolve_compilerFor (slots : Array Grammar) :
    (s.compilerFor language).resolve =
      (Store.mk slots (s.languages.put language ⟨s.slots.size⟩)).get? := by
  funext name
  rw [get?_put, compilerFor]
  simp only [eq_comm]
  rfl

theorem Closed.extends_of_override (hs : s.Closed) (hd : d.Distinct)
    (hid : id.index < s.slots.size)
    (hplace : ∀ kind, placement = .before kind → kind ∈ (s.rules id).names)
    (h : Work.override s language id d placement = .ok (root, t)) :
    s.Extends language id d placement root t := by
  rw [Work.override] at h
  obtain ⟨⟨compiled, pending⟩, hrules, h⟩ := Compiler.exists_of_bind h
  obtain ⟨next, hrest, h⟩ := Compiler.exists_of_bind h
  cases h
  obtain ⟨hown, hinner⟩ := List.forall_mem_cons.1 hd
  rw [d.inner_eq] at hinner
  have hlays := Compiler.rules_lays hinner hrules
  have hsize : pending.size = 1 + d.inner.length := by simpa [d.inner_eq] using hlays.size
  have hkinds : (Table.mk compiled).names = d.kinds := Compiler.kinds_of_rules hrules
  have hcompiled : (Table.mk compiled).names.Nodup := hkinds ▸ hown
  have hoverrides : Table.ofList compiled = ⟨compiled⟩ :=
    congrArg Table.mk (Table.entries_ofList hcompiled)
  rw [hoverrides]
  let merged : Grammar := ⟨mergeRules (s.rules id) ⟨compiled⟩ placement, next⟩
  let t : Store := ⟨s.slots ++ pending.setIfInBounds 0 merged,
    s.languages.put language ⟨s.slots.size⟩⟩
  change s.Extends language id d placement ⟨s.slots.size⟩ t
  have hresolve : (s.compilerFor language).resolve = t.get? := resolve_compilerFor _
  have hold : ∀ id : GrammarId, id.index < s.slots.size → t.grammar? id = s.grammar? id := by
    intro id hid
    exact grammar?_append hid
  have hroot : t.grammar? ⟨s.slots.size⟩ = some merged := by
    simp only [t, grammar?]
    rw [Array.getElem?_append_right (Nat.le_refl _), Nat.sub_self]
    exact Array.getElem?_setIfInBounds_self_of_lt (by omega)
  have hmerged : t.rules ⟨s.slots.size⟩ = mergeRules (s.rules id) ⟨compiled⟩ placement :=
    rules_of_grammar? hroot
  obtain ⟨hbase, -⟩ := hs.rules id
  obtain ⟨hrestOwn, hrestBase⟩ := rest_of_restFrom hrest
  constructor
  · rfl
  · rw [hmerged, ← hkinds]
    exact placed_mergeRules hbase hcompiled hplace
  · refine ⟨compiled, ?_, ?_⟩
    · have hstored := hlays.stored t.slots ?_
      · rwa [hresolve] at hstored
      · -- the slots behind that of the extension have what was compiled into them
        intro k hk _
        have hpos : 0 < k := hk
        simp only [t, compilerFor]
        rw [Array.getElem?_append_right (Nat.le_add_right _ _), Nat.add_sub_cancel_left,
          Array.getElem?_setIfInBounds_ne (by omega)]
    · intro entry hentry
      have hfound : (Table.mk compiled).get? entry.1 = some entry.2 :=
        Table.get?_of_mem hcompiled hentry
      rw [hmerged, get?_mergeRules hbase hcompiled hplace, hfound]
      rfl
  · intro kind hkind
    have hnone : (Table.mk compiled).get? kind = none := Table.get?_eq_none (hkinds ▸ hkind)
    rw [hmerged, get?_mergeRules hbase hcompiled hplace, hnone]
    rfl
  · intro name hname
    obtain ⟨other, hother, rfl⟩ := hrestOwn name hname
    refine ⟨other, ?_, ?_⟩
    · rw [← hresolve, hother]
    · rw [hroot]
      rfl
  · intro hnone
    rw [hroot, ← hrestBase hnone]
    rfl
  · exact hold id hid
  · exact hold
  · rfl
  · simp only [t]
    rw [Array.size_append, Array.size_setIfInBounds, hsize]

/-- An extension merges exactly. Its kinds are those of the base, in their order, with those that
    the base lacks behind them or right before the kind that is asked for. A kind that the
    definition has, has the patterns of the definition, and any other kind those of the base. What
    the rules are continued with is what the definition names, or else what the base has. No grammar
    that was there is changed, whatever the extension is called. -/
theorem extendAt_extends (hs : s.Reachable) (hd : d.Distinct) {base : String}
    (hbase : s.get? base = some id)
    (hplace : ∀ kind, placement = .before kind → kind ∈ (s.rules id).names)
    (hsound : ∀ e ∈ d.grammars, e.Sound (s.knows language)) :
    ∃ root t, s.extendAt language base d placement = .ok (root, t) ∧
      s.Extends language id d placement root t := by
  have hclosed := hs.closed
  have hcheck : Work.checkPlace s id placement = .ok () := by
    cases placement with
    | atEnd => rfl
    | before kind =>
      rw [Work.checkPlace, if_pos (Table.contains_of_mem (hplace kind rfl))]
  have hextend : s.extendAt language base d placement =
      Work.override s language id d placement := by
    rw [Work.extendAt_eq, hbase]
    dsimp only
    rw [hcheck]
    rfl
  obtain ⟨root, t, hdone⟩ := (s.override_reports language id d placement).exists_pair_iff.2
    (d.faults_eq_nil.2 hsound)
  refine ⟨root, t, hextend.trans hdone, ?_⟩
  exact hclosed.extends_of_override hd (hclosed.get?_lt hbase) hplace hdone

/-- Another rule for a kind of `extended`, and two for kinds that it lacks. -/
def rewording : GrammarDef :=
  .ofRules [
    .mk "word" [.mk { source := "\\w+", aliases := ["name"] } (.grammar (.ofRules [
      .mk "digit" [.plain "\\d"]] (some "lists")))],
    .mk "nothing" [.mk { source := "-", greedy := true } (.language "lists")],
    .mk "space" [.plain " +"]] (some "lists")

/-- The extension takes over the name of its base, and has a rule of its own for the kind that the
    new ones go before. -/
theorem extendAt_extends_rewording :
    (extended.Reachable ∧ rewording.Distinct ∧ extended.get? "lists" = some ⟨1⟩ ∧
      (∀ kind, Placement.before "nothing" = .before kind → kind ∈ (extended.rules ⟨1⟩).names) ∧
      ∀ e ∈ rewording.grammars, e.Sound (extended.knows "lists")) ∧
    ∃ root t, extended.extendAt "lists" "lists" rewording (.before "nothing") = .ok (root, t) ∧
      extended.Extends "lists" ⟨1⟩ rewording (.before "nothing") root t := by
  have hdistinct : rewording.Distinct := by
    apply GrammarDef.distinct_ofRules
    decide +kernel
  have hbase : extended.get? "lists" = some ⟨1⟩ := by decide +kernel
  have hplace : ∀ kind, Placement.before "nothing" = .before kind →
      kind ∈ (extended.rules ⟨1⟩).names := by
    rintro kind ⟨⟩
    decide +kernel
  have hfaults : rewording.faults (extended.knows "lists") = [] := by decide +kernel
  have hsound := rewording.faults_eq_nil.1 hfaults
  exact ⟨⟨reachable_extended, hdistinct, hbase, hplace, hsound⟩,
    extendAt_extends reachable_extended hdistinct hbase hplace hsound⟩

end Store

end SyntaxHue
