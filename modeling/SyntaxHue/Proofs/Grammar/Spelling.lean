import SyntaxHue.Proofs.Grammar.Definition
import SyntaxHue.Proofs.Json.Value
import Mathlib.Data.List.Perm.Basic

/-!
# Spellings of definitions

A definition can be written in many ways: a single pattern alone or in a list, a pattern that is
nothing but its source as a text or as a record, a single alias alone or in a list, and what is
absent left out or said. All of them are read as the definition, with its kinds in the order of the
text. What holds something else than a pattern in a rule, at any depth, is no definition.
-/

namespace SyntaxHue

/-! ### Ways to write a definition -/

/-- How a pattern says whether something is so. -/
inductive Field.Flag (name : String) : Bool → List Field → Prop where
  | omitted : Field.Flag name false []
  | written (b : Bool) : Field.Flag name b [.mk (.text name) (.bool b)]

/-- How a pattern says its aliases. -/
inductive Field.Aliases : List String → List Field → Prop where
  | omitted : Field.Aliases [] []
  | null : Field.Aliases [] [.mk (.text "alias") .null]
  | text (name : String) : Field.Aliases [name] [.mk (.text "alias") (.text name)]
  | list (names : List String) :
      Field.Aliases names [.mk (.text "alias") (.list (names.map .text))]

/-- Fields for rules, with the field that names the language behind them wherever it may be. -/
inductive Field.WithRest : Option String → List Field → List Field → Prop where
  | omitted (own : List Field) : Field.WithRest none own own
  | null (front back : List Field) :
      Field.WithRest none (front ++ back) (front ++ .mk (.text "rest") .null :: back)
  | text (language : String) (front back : List Field) :
      Field.WithRest (some language) (front ++ back)
        (front ++ .mk (.text "rest") (.text language) :: back)

mutual

/-- A value that spells a grammar. -/
inductive GrammarDef.SpelledAs : GrammarDef → Datum → Prop where
  | record {rules : List RuleDef} {rest : Option String} {own fields : List Field}
      (hrules : RuleDef.SpelledAs rules own) (hrest : Field.WithRest rest own fields) :
      GrammarDef.SpelledAs (.mk rules rest) (.record fields)

/-- Fields that spell rules. -/
inductive RuleDef.SpelledAs : List RuleDef → List Field → Prop where
  | nil : RuleDef.SpelledAs [] []
  | cons (kind : String) {patterns : List PatternDef} {value : Datum} {rules : List RuleDef}
      {fields : List Field} (hpatterns : RuleDef.HeldAs patterns value)
      (hrules : RuleDef.SpelledAs rules fields) :
      RuleDef.SpelledAs (.mk kind patterns :: rules) (.mk (.text kind) value :: fields)

/-- A value that spells the patterns of a rule: a list of them, or the only one. -/
inductive RuleDef.HeldAs : List PatternDef → Datum → Prop where
  | bare {pattern : PatternDef} {value : Datum} (h : PatternDef.SpelledAs pattern value) :
      RuleDef.HeldAs [pattern] value
  | list {patterns : List PatternDef} {items : List Datum}
      (h : PatternDef.ListedAs patterns items) : RuleDef.HeldAs patterns (.list items)

/-- Items that spell patterns. -/
inductive PatternDef.ListedAs : List PatternDef → List Datum → Prop where
  | nil : PatternDef.ListedAs [] []
  | cons {pattern : PatternDef} {item : Datum} {patterns : List PatternDef} {items : List Datum}
      (hpattern : PatternDef.SpelledAs pattern item)
      (hpatterns : PatternDef.ListedAs patterns items) :
      PatternDef.ListedAs (pattern :: patterns) (item :: items)

/-- A value that spells a pattern: its source, if that is all there is, or a record with its fields
    in any order. -/
inductive PatternDef.SpelledAs : PatternDef → Datum → Prop where
  | text (source : String) : PatternDef.SpelledAs (.plain source) (.text source)
  | record {head : PatternHead} {inside : InsideDef}
      {greedy lookbehind aliases inner fields : List Field}
      (hgreedy : Field.Flag "greedy" head.greedy greedy)
      (hlookbehind : Field.Flag "lookbehind" head.lookbehind lookbehind)
      (haliases : Field.Aliases head.aliases aliases) (hinside : InsideDef.SaidAs inside inner)
      (hfields : fields.Perm (.mk (.text "pattern") (.text head.source) ::
        (greedy ++ (lookbehind ++ (aliases ++ inner))))) :
      PatternDef.SpelledAs (.mk head inside) (.record fields)

/-- How a pattern says its inner grammar. -/
inductive InsideDef.SaidAs : InsideDef → List Field → Prop where
  | omitted : InsideDef.SaidAs .none []
  | written {inside : InsideDef} {value : Datum} (h : InsideDef.SpelledAs inside value) :
      InsideDef.SaidAs inside [.mk (.text "inside") value]

/-- A value that spells an inner grammar. -/
inductive InsideDef.SpelledAs : InsideDef → Datum → Prop where
  | null : InsideDef.SpelledAs .none .null
  | language (name : String) : InsideDef.SpelledAs (.language name) (.text name)
  | grammar {d : GrammarDef} {value : Datum} (h : GrammarDef.SpelledAs d value) :
      InsideDef.SpelledAs (.grammar d) value

end

/-! ### Reading a spelling -/

theorem Datum.mapM_text (names : List String) :
    (names.map Datum.text).mapM Datum.text? = some names := by
  induction names with
  | nil => rfl
  | cons name names ih =>
    rw [List.map_cons, List.mapM_cons, ih]
    rfl

namespace Field

/-- Fields under one name are found under that name only. -/
theorem valuesOf_of_name {name : String} {fields : List Field}
    (h : ∀ f ∈ fields, f.key = .text name) (field : PatternField) :
    valuesOf field fields =
      if PatternField.ofName? name = some field then fields.map Field.value else [] := by
  unfold valuesOf
  have hkey : ∀ f ∈ fields, PatternField.ofKey? f.key = PatternField.ofName? name := by
    intro f hf
    rw [h f hf, PatternField.ofKey?]
  split
  · next hname =>
    rw [List.filter_eq_self.2]
    intro f hf
    simpa [hkey f hf] using hname
  · next hname =>
    rw [List.filter_eq_nil_iff.2, List.map_nil]
    intro f hf
    simpa [hkey f hf] using hname

theorem valuesOf_append (field : PatternField) (front back : List Field) :
    valuesOf field (front ++ back) = valuesOf field front ++ valuesOf field back := by
  rw [valuesOf, List.filter_append, List.map_append]
  rfl

/-- In another order, a field that is there at most once is found all the same. -/
theorem valuesOf_eq_of_perm {fields others : List Field} (h : fields.Perm others)
    {field : PatternField} {values : List Datum} (hvalues : valuesOf field others = values)
    (hone : values.length ≤ 1) : valuesOf field fields = values := by
  have hperm : (valuesOf field fields).Perm (valuesOf field others) := (h.filter _).map _
  rw [hvalues] at hperm
  match values, hone with
  | [], _ => exact hperm.eq_nil
  | [value], _ => exact List.perm_singleton.1 hperm

theorem Flag.name {name : String} {b : Bool} {fields : List Field} (h : Flag name b fields) :
    ∀ f ∈ fields, f.key = .text name := by
  cases h <;> simp [key]

theorem Flag.length_le {name : String} {b : Bool} {fields : List Field} (h : Flag name b fields) :
    fields.length ≤ 1 := by
  cases h <;> simp

theorem Flag.read {name : String} {b : Bool} {group fields : List Field} {field : PatternField}
    (h : Flag name b group) (hvalues : valuesOf field fields = group.map value) :
    ∃ found, valueOf? field fields = some found ∧ Datum.flag? found = some b := by
  cases h with
  | omitted => exact ⟨none, by rw [valueOf?, hvalues]; rfl, rfl⟩
  | written => exact ⟨some (.bool b), by rw [valueOf?, hvalues]; rfl, rfl⟩

theorem Aliases.name {names : List String} {fields : List Field} (h : Aliases names fields) :
    ∀ f ∈ fields, f.key = .text "alias" := by
  cases h <;> simp [key]

theorem Aliases.length_le {names : List String} {fields : List Field} (h : Aliases names fields) :
    fields.length ≤ 1 := by
  cases h <;> simp

theorem Aliases.read {names : List String} {group fields : List Field}
    (h : Aliases names group) (hvalues : valuesOf .aliases fields = group.map value) :
    ∃ found, valueOf? .aliases fields = some found ∧ Datum.texts? found = some names := by
  cases h with
  | omitted => exact ⟨none, by rw [valueOf?, hvalues]; rfl, rfl⟩
  | null => exact ⟨some .null, by rw [valueOf?, hvalues]; rfl, rfl⟩
  | text name => exact ⟨some (.text name), by rw [valueOf?, hvalues]; rfl, rfl⟩
  | list =>
    exact ⟨some (.list (names.map .text)), by rw [valueOf?, hvalues]; rfl, Datum.mapM_text names⟩

end Field

theorem InsideDef.SaidAs.name {inside : InsideDef} {fields : List Field}
    (h : inside.SaidAs fields) : ∀ f ∈ fields, f.key = .text "inside" := by
  cases h <;> simp [Field.key]

theorem InsideDef.SaidAs.length_le {inside : InsideDef} {fields : List Field}
    (h : inside.SaidAs fields) : fields.length ≤ 1 := by
  cases h <;> simp

namespace PatternDef

variable {head : PatternHead} {inside : InsideDef}
  {greedy lookbehind aliases inner fields : List Field}
  (hgreedy : Field.Flag "greedy" head.greedy greedy)
  (hlookbehind : Field.Flag "lookbehind" head.lookbehind lookbehind)
  (haliases : Field.Aliases head.aliases aliases) (hinside : inside.SaidAs inner)
  (hfields : fields.Perm (.mk (.text "pattern") (.text head.source) ::
    (greedy ++ (lookbehind ++ (aliases ++ inner)))))

include hgreedy hlookbehind haliases hinside hfields

/-- The fields of a pattern, in whatever order, are found under their own names. -/
theorem valuesOf_said (field : PatternField) :
    Field.valuesOf field fields =
      match field with
      | .pattern => [.text head.source]
      | .greedy => greedy.map Field.value
      | .lookbehind => lookbehind.map Field.value
      | .aliases => aliases.map Field.value
      | .inside => inner.map Field.value := by
  have hsource : ∀ f ∈ [Field.mk (.text "pattern") (.text head.source)],
      f.key = .text "pattern" := by
    simp [Field.key]
  refine Field.valuesOf_eq_of_perm hfields ?_ ?_
  · rw [← List.singleton_append]
    simp only [Field.valuesOf_append, Field.valuesOf_of_name hsource,
      Field.valuesOf_of_name hgreedy.name, Field.valuesOf_of_name hlookbehind.name,
      Field.valuesOf_of_name haliases.name, Field.valuesOf_of_name hinside.name]
    cases field <;> simp [PatternField.ofName?, Field.value]
  · cases field with
    | pattern => rfl
    | greedy => simpa using hgreedy.length_le
    | lookbehind => simpa using hlookbehind.length_le
    | aliases => simpa using haliases.length_le
    | inside => simpa using hinside.length_le

/-- A pattern is read from its fields, but for its inner grammar. -/
theorem head_said : PatternHead.ofFields? fields = some head := by
  have hvalues := valuesOf_said hgreedy hlookbehind haliases hinside hfields
  have hkeys : fields.all (·.key.isPatternKey) = true := by
    rw [hfields.all_eq, List.all_eq_true]
    intro f hf
    have hname : ∃ name, f.key = .text name := by
      simp only [List.mem_cons, List.mem_append] at hf
      rcases hf with rfl | hf | hf | hf | hf
      · exact ⟨_, rfl⟩
      · exact ⟨_, hgreedy.name f hf⟩
      · exact ⟨_, hlookbehind.name f hf⟩
      · exact ⟨_, haliases.name f hf⟩
      · exact ⟨_, hinside.name f hf⟩
    obtain ⟨name, hname⟩ := hname
    rw [hname]
    rfl
  have hsource : Field.valueOf? .pattern fields = some (some (.text head.source)) := by
    rw [Field.valueOf?, hvalues]
  obtain ⟨greedy?, hgreedyAt, hgreedyRead⟩ := hgreedy.read (hvalues .greedy)
  obtain ⟨lookbehind?, hlookbehindAt, hlookbehindRead⟩ := hlookbehind.read (hvalues .lookbehind)
  obtain ⟨aliases?, haliasesAt, haliasesRead⟩ := haliases.read (hvalues .aliases)
  have hinner : ∃ inner?, Field.valueOf? .inside fields = some inner? := by
    rw [Field.valueOf?, hvalues]
    cases hinside <;> exact ⟨_, rfl⟩
  obtain ⟨inner?, hinner⟩ := hinner
  simp only [PatternHead.ofFields?, hkeys, Bool.not_true, Bool.false_eq_true, if_false,
    Option.bind_eq_bind, Option.bind_some, hsource, hgreedyAt, hgreedyRead, hlookbehindAt,
    hlookbehindRead, haliasesAt, haliasesRead, hinner]
  rfl

end PatternDef

/-! #### Rules -/

namespace RuleDef

/-- The field that names a language is no rule. -/
theorem ofFields?_rest (front back : List Field) (value : Datum) :
    ofFields? (front ++ .mk (.text "rest") value :: back) = ofFields? (front ++ back) := by
  induction front with
  | nil => simp [ofFields?, Datum.text?]
  | cons f front ih =>
    obtain ⟨key, other⟩ := f
    rw [List.cons_append, List.cons_append, ofFields?, ofFields?, ih]

theorem SpelledAs.ne_rest {rules : List RuleDef} {fields : List Field}
    (h : RuleDef.SpelledAs rules fields) (hkinds : "rest" ∉ rules.map RuleDef.kind) :
    ∀ f ∈ fields, f.key.text? ≠ some "rest" :=
  match h with
  | .nil => List.forall_mem_nil _
  | .cons kind _ hrules => by
    rw [List.map_cons, List.mem_cons, not_or] at hkinds
    rw [List.forall_mem_cons]
    refine ⟨?_, hrules.ne_rest hkinds.2⟩
    intro hkey
    exact hkinds.1 (Option.some.inj hkey).symm

end RuleDef

/-- The language behind rules is found wherever it stands, and does not change the rules. -/
theorem Field.WithRest.read {rest : Option String} {own fields : List Field}
    (h : WithRest rest own fields) (hown : ∀ f ∈ own, f.key.text? ≠ some "rest") :
    rest? fields = some rest ∧ RuleDef.ofFields? fields = RuleDef.ofFields? own := by
  have hnone : own.filter (fun f => f.key.text? = some "rest") = [] := by
    simpa [List.filter_eq_nil_iff] using hown
  cases h with
  | omitted =>
    rw [rest?, hnone]
    exact ⟨rfl, rfl⟩
  | null front back =>
    refine ⟨?_, RuleDef.ofFields?_rest front back _⟩
    rw [List.filter_append, List.append_eq_nil_iff] at hnone
    rw [rest?, List.filter_append, hnone.1, List.nil_append,
      List.filter_cons_of_pos (by simp [key, Datum.text?]), hnone.2]
    rfl
  | text language front back =>
    refine ⟨?_, RuleDef.ofFields?_rest front back _⟩
    rw [List.filter_append, List.append_eq_nil_iff] at hnone
    rw [rest?, List.filter_append, hnone.1, List.nil_append,
      List.filter_cons_of_pos (by simp [key, Datum.text?]), hnone.2]
    rfl

/-- Rules for different kinds are all kept. -/
theorem GrammarDef.ofRules_of_nodup {rules : List RuleDef} (h : (rules.map RuleDef.kind).Nodup)
    (rest : Option String) : ofRules rules rest = mk rules rest := by
  have hput : ∀ (old : List RuleDef) (rule : RuleDef), rule.kind ∉ old.map RuleDef.kind →
      putRule rule old = old ++ [rule] := by
    intro old rule hrule
    induction old with
    | nil => rfl
    | cons other old ih =>
      rw [List.map_cons, List.mem_cons, not_or] at hrule
      rw [putRule, if_neg (Ne.symm hrule.1), ih hrule.2, List.cons_append]
  -- by induction on the rules that are still to be put, for any that are there already
  have hfold : ∀ more old : List RuleDef, ((old ++ more).map RuleDef.kind).Nodup →
      more.foldl (fun rules rule => putRule rule rules) old = old ++ more := by
    intro more
    induction more with
    | nil => exact fun old _ => (List.append_nil old).symm
    | cons rule more ih =>
      intro old hold
      have hnew : rule.kind ∉ old.map RuleDef.kind := by
        intro hmem
        rw [List.map_append, List.nodup_append] at hold
        exact hold.2.2 _ hmem _ (by simp) rfl
      rw [List.append_cons] at hold
      rw [List.foldl_cons, hput old rule hnew, ih _ hold, ← List.append_cons]
  rw [ofRules, hfold rules [] h, List.nil_append]

theorem InsideDef.ofFields?_of_nil {fields : List Field}
    (h : Field.valuesOf .inside fields = []) : InsideDef.ofFields? fields = some .none := by
  induction fields with
  | nil => rfl
  | cons f fields ih =>
    obtain ⟨key, value⟩ := f
    by_cases hkey : PatternField.ofKey? key = some .inside
    · simp [Field.valuesOf, Field.key, hkey] at h
    · rw [InsideDef.ofFields?, if_neg hkey]
      refine ih ?_
      simpa [Field.valuesOf, Field.key, hkey] using h

theorem InsideDef.ofFields?_of_cons {fields : List Field} {value : Datum} {more : List Datum}
    (h : Field.valuesOf .inside fields = value :: more) :
    InsideDef.ofFields? fields = InsideDef.ofDatum? value := by
  induction fields with
  | nil => contradiction
  | cons f fields ih =>
    obtain ⟨key, other⟩ := f
    rw [InsideDef.ofFields?]
    by_cases hkey : PatternField.ofKey? key = some .inside
    · rw [if_pos hkey]
      simp only [Field.valuesOf, Field.key, hkey, decide_true, List.filter_cons_of_pos,
        List.map_cons, List.cons.injEq] at h
      rw [← h.1]
      rfl
    · rw [if_neg hkey]
      refine ih ?_
      simpa [Field.valuesOf, Field.key, hkey] using h

/-- A value that is one pattern is a rule with that pattern. -/
theorem RuleDef.patterns?_of_ofDatum? {value : Datum} {pattern : PatternDef}
    (h : PatternDef.ofDatum? value = some pattern) : RuleDef.patterns? value = some [pattern] := by
  cases value with
  | text =>
    cases h
    rfl
  | record fields =>
    rw [PatternDef.ofDatum?] at h
    obtain ⟨head, hhead, h⟩ := Option.bind_eq_some_iff.1 h
    obtain ⟨inside, hinside, h⟩ := Option.bind_eq_some_iff.1 h
    cases h
    rw [RuleDef.patterns?, hhead, hinside]
    rfl
  | _ => contradiction

/-- An inner grammar that is a record is read as a definition is. -/
theorem InsideDef.ofDatum?_record (fields : List Field) :
    InsideDef.ofDatum? (.record fields) =
      (GrammarDef.ofDatum? (.record fields)).map InsideDef.grammar := by
  rw [InsideDef.ofDatum?, GrammarDef.ofDatum?]
  cases Field.rest? fields with
  | none => rfl
  | some rest => cases RuleDef.ofFields? fields <;> rfl

/-- A grammar that can be written: no two rules are for one kind, and no kind is `rest`. -/
def GrammarDef.Writable (d : GrammarDef) : Prop :=
  d.kinds.Nodup ∧ "rest" ∉ d.kinds

mutual

theorem GrammarDef.ofDatum?_of_spelledAs {d : GrammarDef} {value : Datum}
    (h : d.SpelledAs value) (hd : ∀ e ∈ d.grammars, e.Writable) :
    GrammarDef.ofDatum? value = some d :=
  match h with
  | .record hrules hrest => by
    obtain ⟨⟨hnodup, hkinds⟩, hinner⟩ := List.forall_mem_cons.1 hd
    have hown := hrules.ne_rest hkinds
    obtain ⟨hfound, hsame⟩ := hrest.read hown
    rw [GrammarDef.ofDatum?, hfound, hsame, RuleDef.ofFields?_of_spelledAs hrules hkinds hinner]
    exact congrArg some (GrammarDef.ofRules_of_nodup hnodup _)

theorem RuleDef.ofFields?_of_spelledAs {rules : List RuleDef} {fields : List Field}
    (h : RuleDef.SpelledAs rules fields) (hkinds : "rest" ∉ rules.map RuleDef.kind)
    (hinner : ∀ e ∈ RuleDef.inner rules, e.Writable) : RuleDef.ofFields? fields = some rules :=
  match h with
  | .nil => rfl
  | .cons kind hpatterns hrules => by
    rw [RuleDef.inner, List.forall_mem_append] at hinner
    rw [List.map_cons, List.mem_cons, not_or] at hkinds
    have hrest : kind ≠ "rest" := Ne.symm hkinds.1
    rw [RuleDef.ofFields?, RuleDef.ofFields?_of_spelledAs hrules hkinds.2 hinner.2,
      RuleDef.patterns?_of_heldAs hpatterns hinner.1]
    simp [Datum.text?, hrest]

theorem RuleDef.patterns?_of_heldAs {patterns : List PatternDef} {value : Datum}
    (h : RuleDef.HeldAs patterns value) (hinner : ∀ e ∈ PatternDef.inner patterns, e.Writable) :
    RuleDef.patterns? value = some patterns :=
  match h with
  | @RuleDef.HeldAs.bare ⟨_, _⟩ _ hpattern => by
    rw [PatternDef.inner, PatternDef.inner, List.append_nil] at hinner
    exact RuleDef.patterns?_of_ofDatum? (PatternDef.ofDatum?_of_spelledAs hpattern hinner)
  | .list hpatterns => by
    rw [RuleDef.patterns?, PatternDef.ofItems?_of_listedAs hpatterns hinner]

theorem PatternDef.ofItems?_of_listedAs {patterns : List PatternDef} {items : List Datum}
    (h : PatternDef.ListedAs patterns items)
    (hinner : ∀ e ∈ PatternDef.inner patterns, e.Writable) :
    PatternDef.ofItems? items = some patterns :=
  match h with
  | .nil => rfl
  | @PatternDef.ListedAs.cons ⟨_, _⟩ _ _ _ hpattern hpatterns => by
    rw [PatternDef.inner, List.forall_mem_append] at hinner
    rw [PatternDef.ofItems?, PatternDef.ofDatum?_of_spelledAs hpattern hinner.1,
      PatternDef.ofItems?_of_listedAs hpatterns hinner.2]
    rfl

theorem PatternDef.ofDatum?_of_spelledAs {pattern : PatternDef} {value : Datum}
    (h : PatternDef.SpelledAs pattern value) (hinner : ∀ e ∈ pattern.inside.inner, e.Writable) :
    PatternDef.ofDatum? value = some pattern :=
  match h with
  | .text source => rfl
  | .record hgreedy hlookbehind haliases hinside hfields => by
    have hvalues := PatternDef.valuesOf_said hgreedy hlookbehind haliases hinside hfields .inside
    have hhead := PatternDef.head_said hgreedy hlookbehind haliases hinside hfields
    rw [PatternDef.ofDatum?, hhead, InsideDef.ofFields?_of_saidAs hinside hinner hvalues]
    rfl

theorem InsideDef.ofFields?_of_saidAs {inside : InsideDef} {inner fields : List Field}
    (h : inside.SaidAs inner) (hinner : ∀ e ∈ inside.inner, e.Writable)
    (hvalues : Field.valuesOf .inside fields = inner.map Field.value) :
    InsideDef.ofFields? fields = some inside :=
  match h with
  | .omitted => InsideDef.ofFields?_of_nil hvalues
  | .written hvalue => by
    rw [InsideDef.ofFields?_of_cons hvalues]
    exact InsideDef.ofDatum?_of_spelledAs hvalue hinner

theorem InsideDef.ofDatum?_of_spelledAs {inside : InsideDef} {value : Datum}
    (h : inside.SpelledAs value) (hinner : ∀ e ∈ inside.inner, e.Writable) :
    InsideDef.ofDatum? value = some inside :=
  match h with
  | .null => rfl
  | .language name => rfl
  | @InsideDef.SpelledAs.grammar _ (.record fields) hd => by
    rw [InsideDef.ofDatum?_record, GrammarDef.ofDatum?_of_spelledAs hd hinner]
    rfl

end

end SyntaxHue
