import SyntaxHue.Proofs.Grammar.Spelling
import SyntaxHue.Proofs.Json.Print

/-!
# The format of definitions

In JSON, whatever spells a definition is read as that definition, and a text in which a rule holds
something else than a pattern is an error.
-/

namespace SyntaxHue

open Json (Light light_null light_bool light_text light_list light_record)

/-! ### Spellings have no numbers -/

namespace Field

theorem Flag.light {name : String} {b : Bool} {fields : List Field} (h : Flag name b fields) :
    ∀ f ∈ fields, Light f.key ∧ Light f.value := by
  cases h with
  | omitted => exact List.forall_mem_nil _
  | written => exact List.forall_mem_singleton.2 ⟨light_text _, light_bool _⟩

theorem Aliases.light {names : List String} {fields : List Field} (h : Aliases names fields) :
    ∀ f ∈ fields, Light f.key ∧ Light f.value := by
  cases h with
  | omitted => exact List.forall_mem_nil _
  | null => exact List.forall_mem_singleton.2 ⟨light_text _, light_null⟩
  | text name => exact List.forall_mem_singleton.2 ⟨light_text _, light_text _⟩
  | list =>
    refine List.forall_mem_singleton.2 ⟨light_text _, light_list ?_⟩
    exact List.forall_mem_map.2 fun name _ => light_text name

theorem WithRest.light {rest : Option String} {own fields : List Field}
    (h : WithRest rest own fields) (hown : ∀ f ∈ own, Light f.key ∧ Light f.value) :
    ∀ f ∈ fields, Light f.key ∧ Light f.value := by
  cases h with
  | omitted => exact hown
  | null front back =>
    rw [List.forall_mem_append] at hown
    rw [List.forall_mem_append, List.forall_mem_cons]
    exact ⟨hown.1, ⟨light_text _, light_null⟩, hown.2⟩
  | text language front back =>
    rw [List.forall_mem_append] at hown
    rw [List.forall_mem_append, List.forall_mem_cons]
    exact ⟨hown.1, ⟨light_text _, light_text _⟩, hown.2⟩

end Field

mutual

theorem GrammarDef.SpelledAs.light {d : GrammarDef} {value : Datum} (h : d.SpelledAs value) :
    Light value :=
  match h with
  | .record hrules hrest => light_record (hrest.light hrules.light)

theorem RuleDef.SpelledAs.light {rules : List RuleDef} {fields : List Field}
    (h : RuleDef.SpelledAs rules fields) : ∀ f ∈ fields, Light f.key ∧ Light f.value :=
  match h with
  | .nil => List.forall_mem_nil _
  | .cons _ hpatterns hrules =>
    List.forall_mem_cons.2 ⟨⟨light_text _, hpatterns.light⟩, hrules.light⟩

theorem RuleDef.HeldAs.light {patterns : List PatternDef} {value : Datum}
    (h : RuleDef.HeldAs patterns value) : Light value :=
  match h with
  | .bare hpattern => hpattern.light
  | .list hpatterns => light_list hpatterns.light

theorem PatternDef.ListedAs.light {patterns : List PatternDef} {items : List Datum}
    (h : PatternDef.ListedAs patterns items) : ∀ item ∈ items, Light item :=
  match h with
  | .nil => List.forall_mem_nil _
  | .cons hpattern hpatterns => List.forall_mem_cons.2 ⟨hpattern.light, hpatterns.light⟩

theorem PatternDef.SpelledAs.light {pattern : PatternDef} {value : Datum}
    (h : pattern.SpelledAs value) : Light value :=
  match h with
  | .text _ => light_text _
  | .record hgreedy hlookbehind haliases hinside hfields => by
    refine light_record fun f hf => ?_
    have hmem := hfields.mem_iff.1 hf
    simp only [List.mem_cons, List.mem_append] at hmem
    rcases hmem with rfl | hf | hf | hf | hf
    · exact ⟨light_text _, light_text _⟩
    · exact hgreedy.light f hf
    · exact hlookbehind.light f hf
    · exact haliases.light f hf
    · exact hinside.light f hf

theorem InsideDef.SaidAs.light {inside : InsideDef} {fields : List Field}
    (h : inside.SaidAs fields) : ∀ f ∈ fields, Light f.key ∧ Light f.value :=
  match h with
  | .omitted => List.forall_mem_nil _
  | .written hvalue => List.forall_mem_singleton.2 ⟨light_text _, hvalue.light⟩

theorem InsideDef.SpelledAs.light {inside : InsideDef} {value : Datum}
    (h : inside.SpelledAs value) : Light value :=
  match h with
  | .null => light_null
  | .language _ => light_text _
  | .grammar hd => hd.light

end

/-! ### What holds something else than a pattern -/

namespace Datum

/-- A value that says a source, as patterns do: a text, or a record with a text for it. -/
def HasSource : Datum → Prop
  | .text _ => True
  | .record fields => ∃ source, .mk (.text "pattern") (.text source) ∈ fields
  | _ => False

/-- What stands in the place of a pattern in the value of a rule: each item of a list, or the
    value itself. -/
inductive Holds : Datum → Datum → Prop where
  | bare {value : Datum} (h : ∀ items, value ≠ .list items) : Holds value value
  | item {items : List Datum} {item : Datum} (h : item ∈ items) : Holds (.list items) item

/-- A record in which a rule holds something without a source, or holds a pattern whose inner
    grammar is such a record. -/
inductive Misspelled : Datum → Prop where
  | source {fields : List Field} {kind : String} {value pattern : Datum}
      (hrule : .mk (.text kind) value ∈ fields) (hkind : kind ≠ "rest")
      (hpattern : value.Holds pattern) (hsource : ¬ pattern.HasSource) :
      Misspelled (.record fields)
  | inside {fields more : List Field} {kind : String} {value inner : Datum}
      (hrule : .mk (.text kind) value ∈ fields) (hkind : kind ≠ "rest")
      (hpattern : value.Holds (.record more)) (hinside : .mk (.text "inside") inner ∈ more)
      (hinner : inner.Misspelled) : Misspelled (.record fields)

theorem AllKeyed.of_mem {items : List Datum} (h : AllKeyed items) {item : Datum}
    (hitem : item ∈ items) : item.Keyed := by
  induction items with
  | nil => contradiction
  | cons other items ih =>
    rcases List.mem_cons.1 hitem with rfl | hmem
    · exact h.1
    · exact ih h.2 hmem

theorem Holds.keyed {value pattern : Datum} (h : value.Holds pattern) (hvalue : value.Keyed) :
    pattern.Keyed := by
  cases h with
  | bare => exact hvalue
  | item hitem => exact AllKeyed.of_mem hvalue hitem

end Datum

theorem Field.AllKeyed.of_mem {fields : List Field} (h : AllKeyed fields) {f : Field}
    (hf : f ∈ fields) : (∃ name, f.key = .text name) ∧ f.value.Keyed := by
  induction fields with
  | nil => contradiction
  | cons other fields ih =>
    obtain ⟨key, value⟩ := other
    rcases List.mem_cons.1 hf with rfl | hmem
    · exact ⟨h.1, h.2.1⟩
    · exact ih h.2.2 hmem

theorem Field.valuesOf_of_mem {name : String} {value : Datum} {fields : List Field}
    (h : .mk (.text name) value ∈ fields) {field : PatternField}
    (hname : PatternField.ofName? name = some field) : value ∈ valuesOf field fields := by
  refine List.mem_map.2 ⟨.mk (.text name) value, List.mem_filter.2 ⟨h, ?_⟩, rfl⟩
  exact decide_eq_true hname

theorem Field.valuesOf_of_valueOf? {field : PatternField} {fields : List Field}
    {found : Option Datum} (h : valueOf? field fields = some found) :
    valuesOf field fields = found.toList := by
  rw [valueOf?] at h
  split at h
  · next hnone =>
    cases h
    exact hnone
  · next hone =>
    cases h
    exact hone
  · contradiction

theorem PatternField.eq_of_ofName? {name : String} (h : ofName? name = some .pattern) :
    name = "pattern" := by
  unfold ofName? at h
  split at h <;> simp_all

theorem PatternHead.exists_of_ofFields? {fields : List Field} {head : PatternHead}
    (h : PatternHead.ofFields? fields = some head) :
    (∃ source, Field.valuesOf .pattern fields = [.text source]) ∧
      ∃ inner?, Field.valueOf? .inside fields = some inner? := by
  rw [PatternHead.ofFields?] at h
  split at h
  · contradiction
  obtain ⟨source?, hsource, h⟩ := Option.bind_eq_some_iff.1 h
  split at h
  · next source =>
    obtain ⟨_, -, h⟩ := Option.bind_eq_some_iff.1 h
    obtain ⟨_, -, h⟩ := Option.bind_eq_some_iff.1 h
    obtain ⟨_, -, h⟩ := Option.bind_eq_some_iff.1 h
    obtain ⟨_, -, h⟩ := Option.bind_eq_some_iff.1 h
    obtain ⟨_, -, h⟩ := Option.bind_eq_some_iff.1 h
    obtain ⟨_, -, h⟩ := Option.bind_eq_some_iff.1 h
    obtain ⟨inner?, hinner, -⟩ := Option.bind_eq_some_iff.1 h
    exact ⟨⟨source, Field.valuesOf_of_valueOf? hsource⟩, inner?, hinner⟩
  · contradiction

/-- What has no source is no pattern. -/
theorem PatternDef.ofDatum?_of_not_hasSource {pattern : Datum} (hkeyed : pattern.Keyed)
    (h : ¬ pattern.HasSource) : PatternDef.ofDatum? pattern = none := by
  cases pattern with
  | text => exact absurd trivial h
  | record fields =>
    have hhead : PatternHead.ofFields? fields = none := by
      by_contra hsome
      obtain ⟨head, hhead⟩ := Option.ne_none_iff_exists'.1 hsome
      obtain ⟨⟨source, hsource⟩, -⟩ := PatternHead.exists_of_ofFields? hhead
      have hmem : Datum.text source ∈ Field.valuesOf .pattern fields := by
        rw [hsource]
        exact List.mem_cons_self
      -- the field that the source was found in has a text for its key, so it is the one
      obtain ⟨⟨key, value⟩, hf, rfl⟩ := List.mem_map.1 hmem
      obtain ⟨hf, hname⟩ := List.mem_filter.1 hf
      obtain ⟨name, rfl⟩ := (Field.AllKeyed.of_mem hkeyed hf).1
      obtain rfl := PatternField.eq_of_ofName? (of_decide_eq_true hname)
      exact h ⟨source, hf⟩
    rw [PatternDef.ofDatum?, hhead]
    rfl
  | _ => rfl

/-- A pattern whose inner grammar is none is no pattern either. -/
theorem PatternDef.ofDatum?_of_inside {more : List Field} {inner : Datum}
    (hmem : .mk (.text "inside") inner ∈ more) (h : InsideDef.ofDatum? inner = none) :
    PatternDef.ofDatum? (.record more) = none := by
  rw [PatternDef.ofDatum?]
  cases hhead : PatternHead.ofFields? more with
  | none => rfl
  | some head =>
    obtain ⟨-, inner?, hinner⟩ := PatternHead.exists_of_ofFields? hhead
    have hvalues := Field.valuesOf_of_valueOf? hinner
    have hfound : inner ∈ Field.valuesOf .inside more := Field.valuesOf_of_mem hmem rfl
    rw [hvalues, Option.mem_toList] at hfound
    rw [hfound] at hvalues
    rw [InsideDef.ofFields?_of_cons hvalues, h]
    rfl

/-- A rule is not read if it holds something that is no pattern. -/
theorem RuleDef.patterns?_eq_none {value pattern : Datum} (h : value.Holds pattern)
    (hpattern : PatternDef.ofDatum? pattern = none) : RuleDef.patterns? value = none := by
  cases h with
  | bare hlist =>
    cases value with
    | text => contradiction
    | record fields =>
      rw [PatternDef.ofDatum?] at hpattern
      rw [RuleDef.patterns?]
      cases hhead : PatternHead.ofFields? fields with
      | none => rfl
      | some head =>
        rw [hhead] at hpattern
        cases hinside : InsideDef.ofFields? fields with
        | none => rfl
        | some inside =>
          rw [hinside] at hpattern
          contradiction
    | list items => exact absurd rfl (hlist items)
    | _ => rfl
  | @item items _ hitem =>
    rw [RuleDef.patterns?]
    induction items with
    | nil => contradiction
    | cons other items ih =>
      rw [PatternDef.ofItems?]
      rcases List.mem_cons.1 hitem with rfl | hmem
      · rw [hpattern]
        rfl
      · rw [ih hmem]
        cases PatternDef.ofDatum? other <;> rfl

theorem RuleDef.ofFields?_eq_none {fields : List Field} {kind : String} {value : Datum}
    (h : .mk (.text kind) value ∈ fields) (hkind : kind ≠ "rest")
    (hvalue : RuleDef.patterns? value = none) : RuleDef.ofFields? fields = none := by
  induction fields with
  | nil => contradiction
  | cons other fields ih =>
    obtain ⟨key, otherValue⟩ := other
    rw [RuleDef.ofFields?]
    rcases List.mem_cons.1 h with heq | hmem
    · cases heq
      rw [hvalue]
      cases RuleDef.ofFields? fields <;> simp [Datum.text?, hkind]
    · rw [ih hmem]
      cases key.text? <;> rfl

/-- What holds something else than a pattern in a rule, at any depth, is no definition. -/
theorem Datum.Misspelled.ofFields? {value : Datum} (h : value.Misspelled) (hkeyed : value.Keyed) :
    ∃ fields, value = .record fields ∧ RuleDef.ofFields? fields = none := by
  induction h with
  | source hrule hkind hpattern hsource =>
    have hvalue := (Field.AllKeyed.of_mem hkeyed hrule).2
    have hnone := PatternDef.ofDatum?_of_not_hasSource (hpattern.keyed hvalue) hsource
    exact ⟨_, rfl, RuleDef.ofFields?_eq_none hrule hkind (RuleDef.patterns?_eq_none hpattern hnone)⟩
  | inside hrule hkind hpattern hinside _ ih =>
    have hvalue := (Field.AllKeyed.of_mem hkeyed hrule).2
    obtain ⟨fields, rfl, hfields⟩ :=
      ih (Field.AllKeyed.of_mem (hpattern.keyed hvalue) hinside).2
    have hinner : InsideDef.ofDatum? (.record fields) = none := by
      rw [InsideDef.ofDatum?, hfields]
      cases Field.rest? fields <;> rfl
    have hnone := PatternDef.ofDatum?_of_inside hinside hinner
    exact ⟨_, rfl, RuleDef.ofFields?_eq_none hrule hkind (RuleDef.patterns?_eq_none hpattern hnone)⟩

theorem GrammarDef.ofDatum?_of_misspelled {value : Datum} (h : value.Misspelled)
    (hkeyed : value.Keyed) : GrammarDef.ofDatum? value = none := by
  obtain ⟨fields, rfl, hfields⟩ := h.ofFields? hkeyed
  rw [GrammarDef.ofDatum?, hfields]
  cases Field.rest? fields <;> rfl

/-! ### Definitions in JSON -/

/-- What a text spells is what is read from it, with all kinds in the order of the text. If a rule
    in it holds something else than a pattern, at any depth, nothing is read. -/
theorem GrammarDef.ofJson_of_isText {value : Datum} {source : String}
    (h : Json.IsText value source.toList) :
    (∀ d : GrammarDef, (∀ e ∈ d.grammars, e.Writable) → d.SpelledAs value →
      value.depth ≤ Json.depthLimit → ofJson source = .ok d) ∧
    (value.Misspelled → ofJson source = .error .malformed) := by
  refine ⟨?_, ?_⟩
  · intro d hd hspelled hdepth
    rcases h.read with hread | ⟨hlimits, -⟩
    · rw [ofJson, hread, ofDatum, Option.bind_some, ofDatum?_of_spelledAs hspelled hd]
    · exact absurd ⟨hdepth, hspelled.light⟩ hlimits
  · intro hmisspelled
    rcases h.read with hread | ⟨-, hread⟩
    · rw [ofJson, hread, ofDatum, Option.bind_some, ofDatum?_of_misspelled hmisspelled h.1]
    · rw [ofJson, hread]
      rfl

/-- A definition with a rule whose patterns are in an inner grammar. -/
def mixed : GrammarDef :=
  .mk [
    .mk "word" [.mk { source := "\\w+", aliases := ["name"] }
      (.grammar (.mk [.mk "digit" [.plain "\\d", .plain "_"]] none))],
    .mk "sign" [.plain "[+-]"]] none

/-- The same in short and long forms. -/
def mixedForms : Datum :=
  .record [
    .mk (.text "word") (.record [
      .mk (.text "alias") (.text "name"),
      .mk (.text "pattern") (.text "\\w+"),
      .mk (.text "inside") (.record [
        .mk (.text "digit") (.list [.text "\\d", .record [.mk (.text "pattern") (.text "_")]])])]),
    .mk (.text "rest") .null,
    .mk (.text "sign") (.text "[+-]")]

/-- A number in the place of a pattern of the inner grammar. -/
def numberForPattern : Datum :=
  .record [
    .mk (.text "word") (.record [
      .mk (.text "pattern") (.text "\\w+"),
      .mk (.text "inside") (.record [.mk (.text "digit") (.list [.text "\\d", .natural 5])])])]

theorem spelledAs_mixedForms : mixed.SpelledAs mixedForms := by
  have hunderscore : PatternDef.SpelledAs (.plain "_")
      (.record [.mk (.text "pattern") (.text "_")]) :=
    .record .omitted .omitted .omitted .omitted (.refl _)
  have hinner : GrammarDef.SpelledAs (.mk [.mk "digit" [.plain "\\d", .plain "_"]] none)
      (.record [.mk (.text "digit")
        (.list [.text "\\d", .record [.mk (.text "pattern") (.text "_")]])]) :=
    .record (.cons "digit" (.list (.cons (.text _) (.cons hunderscore .nil))) .nil) (.omitted _)
  have hword : PatternDef.SpelledAs
      (.mk { source := "\\w+", aliases := ["name"] }
        (.grammar (.mk [.mk "digit" [.plain "\\d", .plain "_"]] none)))
      (.record [.mk (.text "alias") (.text "name"), .mk (.text "pattern") (.text "\\w+"),
        .mk (.text "inside") (.record [.mk (.text "digit")
          (.list [.text "\\d", .record [.mk (.text "pattern") (.text "_")]])])]) := by
    refine .record .omitted .omitted (.text "name") (.written (.grammar hinner)) ?_
    exact .swap _ _ _
  exact .record (.cons "word" (.bare hword) (.cons "sign" (.bare (.text _)) .nil))
    (.null [_] [_])

theorem misspelled_numberForPattern : numberForPattern.Misspelled := by
  have hnumber : Datum.Misspelled (.record [.mk (.text "digit")
      (.list [.text "\\d", .natural 5])]) :=
    .source List.mem_cons_self (by decide) (.item (List.mem_cons_of_mem _ List.mem_cons_self)) id
  have hbare : ∀ (fields : List Field) (items : List Datum),
      Datum.record fields ≠ .list items := by
    intro fields items hlist
    cases hlist
  exact .inside List.mem_cons_self (by decide) (.bare (hbare _))
    (List.mem_cons_of_mem _ List.mem_cons_self) hnumber

theorem GrammarDef.ofJson_mixedForms :
    (Json.IsText mixedForms mixedForms.toJson.toList ∧
      (∀ e ∈ mixed.grammars, e.Writable) ∧ mixed.SpelledAs mixedForms ∧
      mixedForms.depth ≤ Json.depthLimit ∧
      Json.IsText numberForPattern numberForPattern.toJson.toList ∧
      numberForPattern.Misspelled) ∧
    ofJson mixedForms.toJson = .ok mixed ∧
    ofJson numberForPattern.toJson = .error .malformed := by
  have htext : Json.IsText mixedForms mixedForms.toJson.toList := by
    refine Json.isText_toJson ?_ ?_
    · simp [mixedForms, Datum.Keyed, Field.AllKeyed, Datum.AllKeyed]
    · simp [mixedForms, Datum.lexemes, Field.lexemes, Field.moreLexemes, Datum.moreLexemes,
        Json.Lexeme.Printable]
  have hwritable : ∀ e ∈ mixed.grammars, e.Writable := by
    simp [mixed, grammars, inner, RuleDef.inner, PatternDef.inner, InsideDef.inner,
      PatternDef.plain, Writable, kinds, rules, RuleDef.kind]
  have hdepth : mixedForms.depth ≤ Json.depthLimit := by decide
  have htext' : Json.IsText numberForPattern numberForPattern.toJson.toList := by
    refine Json.isText_toJson ?_ ?_
    · simp [numberForPattern, Datum.Keyed, Field.AllKeyed, Datum.AllKeyed]
    · simp [numberForPattern, Datum.lexemes, Field.lexemes, Field.moreLexemes, Datum.moreLexemes,
        Json.Lexeme.Printable]
  exact ⟨⟨htext, hwritable, spelledAs_mixedForms, hdepth, htext', misspelled_numberForPattern⟩,
    (ofJson_of_isText htext).1 mixed hwritable spelledAs_mixedForms hdepth,
    (ofJson_of_isText htext').2 misspelled_numberForPattern⟩

end SyntaxHue
