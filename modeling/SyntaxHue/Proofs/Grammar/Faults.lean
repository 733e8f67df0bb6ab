import SyntaxHue.Proofs.Grammar.Atomic
import SyntaxHue.Proofs.Grammar.Compile

/-!
# What is wrong with a definition

The faults of a definition are listed in the order in which it is compiled: rule by rule, and
pattern by pattern with all that is defined inside it, and what a grammar is continued with behind
all of its rules. A definition is compiled if it has none, and otherwise the first of them is
reported.
-/

namespace SyntaxHue

/-- The name of a language, if it is not known. -/
def languageFaults (known : String → Bool) (name : String) : List GrammarError :=
  if known name then [] else [.unknownLanguage name]

/-- What is wrong with the regular expression of a pattern of `kind`. -/
def PatternHead.faults (kind : String) (head : PatternHead) : List GrammarError :=
  match Regex.compile head.source.toList with
  | .ok _ => []
  | .error cause => [.invalidPattern kind head.source cause]

section

variable (known : String → Bool)

mutual

/-- All that is wrong with a definition, if the languages are those that are `known`. -/
def GrammarDef.faults : GrammarDef → List GrammarError
  | .mk rules rest => RuleDef.faults rules ++ rest.toList.flatMap (languageFaults known)

/-- What is wrong with rules, in order. -/
def RuleDef.faults : List RuleDef → List GrammarError
  | [] => []
  | .mk kind [] :: rules => .emptyRule kind :: RuleDef.faults rules
  | .mk kind (pattern :: patterns) :: rules =>
    PatternDef.faults kind (pattern :: patterns) ++ RuleDef.faults rules

/-- What is wrong with patterns, in order: with each regular expression before what is inside. -/
def PatternDef.faults (kind : String) : List PatternDef → List GrammarError
  | [] => []
  | .mk head inside :: patterns =>
    head.faults kind ++ inside.faults ++ PatternDef.faults kind patterns

/-- What is wrong with an inner grammar. -/
def InsideDef.faults : InsideDef → List GrammarError
  | .none => []
  | .language name => languageFaults known name
  | .grammar d => d.faults

end

/-- A pattern is a regular expression, and the language that it names is known. -/
@[mk_iff]
structure PatternDef.Sound (p : PatternDef) : Prop where
  source : ∃ r, Regex.compile p.head.source.toList = .ok r
  inside : ∀ name, p.inside = .language name → known name

/-- A kind has patterns, and nothing is wrong with them. -/
@[mk_iff]
structure RuleDef.Sound (rule : RuleDef) : Prop where
  filled : rule.patterns ≠ []
  patterns : ∀ p ∈ rule.patterns, p.Sound known

/-- Nothing is wrong with a grammar itself, whatever the grammars are that are defined inside it. -/
@[mk_iff]
structure GrammarDef.Sound (d : GrammarDef) : Prop where
  rules : ∀ rule ∈ d.rules, rule.Sound known
  rest : ∀ name, d.rest = some name → known name

/-- What is wrong with a pattern of `kind`. -/
inductive PatternDef.HasFault (kind : String) (p : PatternDef) : GrammarError → Prop where
  | source {cause : RegexError} : Regex.compile p.head.source.toList = .error cause →
      HasFault kind p (.invalidPattern kind p.head.source cause)
  | inside {name : String} : p.inside = .language name → known name = false →
      HasFault kind p (.unknownLanguage name)

/-- What is wrong with a rule of a grammar. -/
inductive RuleDef.HasFault (rule : RuleDef) : GrammarError → Prop where
  | empty : rule.patterns = [] → HasFault rule (.emptyRule rule.kind)
  | pattern {p : PatternDef} {e : GrammarError} : p ∈ rule.patterns →
      p.HasFault known rule.kind e → HasFault rule e

/-- What is wrong with a grammar itself. -/
inductive GrammarDef.HasFault (d : GrammarDef) : GrammarError → Prop where
  | rule {rule : RuleDef} {e : GrammarError} : rule ∈ d.rules → rule.HasFault known e →
      HasFault d e
  | rest {name : String} : d.rest = some name → known name = false →
      HasFault d (.unknownLanguage name)

end

variable {known : String → Bool}

/-! ### Definitions without faults -/

theorem languageFaults_eq_nil {name : String} : languageFaults known name = [] ↔ known name := by
  simp [languageFaults]

theorem PatternHead.faults_eq_nil {kind : String} {head : PatternHead} :
    head.faults kind = [] ↔ ∃ r, Regex.compile head.source.toList = .ok r := by
  unfold PatternHead.faults
  cases Regex.compile head.source.toList <;> simp

mutual

/-- A definition has no faults if nothing is wrong with any of its grammars. -/
theorem GrammarDef.faults_eq_nil (d : GrammarDef) :
    d.faults known = [] ↔ ∀ e ∈ d.grammars, e.Sound known := by
  match d with
  | .mk rules rest =>
    have hrest : rest.toList.flatMap (languageFaults known) = [] ↔
        ∀ name, rest = some name → known name := by
      cases rest <;> simp [languageFaults_eq_nil]
    rw [GrammarDef.faults, List.append_eq_nil_iff, RuleDef.faults_eq_nil rules, hrest,
      GrammarDef.grammars, List.forall_mem_cons, GrammarDef.sound_iff, GrammarDef.inner]
    exact and_right_comm

theorem RuleDef.faults_eq_nil (rules : List RuleDef) :
    RuleDef.faults known rules = [] ↔
      (∀ rule ∈ rules, rule.Sound known) ∧ ∀ e ∈ RuleDef.inner rules, e.Sound known := by
  match rules with
  | [] => simp [RuleDef.faults, RuleDef.inner]
  | .mk kind [] :: rules => simp [RuleDef.faults, RuleDef.sound_iff, RuleDef.patterns]
  | .mk kind (pattern :: patterns) :: rules =>
    have hrule : (RuleDef.mk kind (pattern :: patterns)).Sound known ↔
        ∀ p ∈ pattern :: patterns, p.Sound known := by
      rw [RuleDef.sound_iff]
      exact and_iff_right (List.cons_ne_nil _ _)
    rw [RuleDef.faults, List.append_eq_nil_iff, PatternDef.faults_eq_nil kind (pattern :: patterns),
      ← hrule, RuleDef.faults_eq_nil rules, RuleDef.inner, List.forall_mem_append,
      List.forall_mem_cons]
    exact and_and_and_comm

theorem PatternDef.faults_eq_nil (kind : String) (patterns : List PatternDef) :
    PatternDef.faults known kind patterns = [] ↔
      (∀ p ∈ patterns, p.Sound known) ∧ ∀ e ∈ PatternDef.inner patterns, e.Sound known := by
  match patterns with
  | [] => simp [PatternDef.faults, PatternDef.inner]
  | .mk head inside :: patterns =>
    have hfirst : head.faults kind ++ inside.faults known = [] ↔
        (PatternDef.mk head inside).Sound known ∧ ∀ e ∈ inside.inner, e.Sound known := by
      rw [List.append_eq_nil_iff, PatternHead.faults_eq_nil, inside.faults_eq_nil, ← and_assoc,
        PatternDef.sound_iff]
      rfl
    rw [PatternDef.faults, List.append_eq_nil_iff, hfirst, PatternDef.faults_eq_nil kind patterns,
      PatternDef.inner, List.forall_mem_append, List.forall_mem_cons]
    exact and_and_and_comm

theorem InsideDef.faults_eq_nil (inside : InsideDef) :
    inside.faults known = [] ↔
      (∀ name, inside = .language name → known name) ∧ ∀ e ∈ inside.inner, e.Sound known := by
  match inside with
  | .none => simp [InsideDef.faults, InsideDef.inner]
  | .language name => simp [InsideDef.faults, InsideDef.inner, languageFaults_eq_nil]
  | .grammar d =>
    rw [InsideDef.faults, InsideDef.inner, d.faults_eq_nil]
    simp [GrammarDef.grammars]

end

/-! ### Where a fault is -/

theorem eq_of_mem_languageFaults {name : String} {e : GrammarError}
    (h : e ∈ languageFaults known name) : known name = false ∧ e = .unknownLanguage name := by
  unfold languageFaults at h
  split at h
  · contradiction
  · rename_i hknown
    exact ⟨Bool.eq_false_iff.2 hknown, List.mem_singleton.1 h⟩

theorem PatternHead.hasFault_of_mem {kind : String} {head : PatternHead} {inside : InsideDef}
    {e : GrammarError} (h : e ∈ head.faults kind) :
    (PatternDef.mk head inside).HasFault known kind e := by
  unfold PatternHead.faults at h
  split at h
  · contradiction
  · rename_i cause hcompile
    rw [List.mem_singleton.1 h]
    exact .source hcompile

mutual

/-- Each fault that is listed is that of a grammar of the definition. -/
theorem GrammarDef.hasFault_of_mem {d : GrammarDef} {e : GrammarError}
    (h : e ∈ d.faults known) : ∃ g ∈ d.grammars, g.HasFault known e := by
  match d with
  | .mk rules rest =>
    rw [GrammarDef.faults, List.mem_append] at h
    rcases h with hrules | hrest
    · rcases RuleDef.hasFault_of_mem hrules with ⟨rule, hrule, hfault⟩ | ⟨g, hg, hfault⟩
      · exact ⟨_, List.mem_cons_self, .rule hrule hfault⟩
      · exact ⟨g, List.mem_cons_of_mem _ hg, hfault⟩
    · obtain ⟨name, hname, hfault⟩ := List.mem_flatMap.1 hrest
      obtain ⟨hknown, rfl⟩ := eq_of_mem_languageFaults hfault
      exact ⟨_, List.mem_cons_self, .rest (Option.mem_toList.1 hname) hknown⟩

theorem RuleDef.hasFault_of_mem {rules : List RuleDef} {e : GrammarError}
    (h : e ∈ RuleDef.faults known rules) :
    (∃ rule ∈ rules, rule.HasFault known e) ∨ ∃ g ∈ RuleDef.inner rules, g.HasFault known e := by
  match rules with
  | [] => contradiction
  | .mk kind [] :: rules =>
    rw [RuleDef.faults, List.mem_cons] at h
    rcases h with rfl | hrules
    · exact .inl ⟨_, List.mem_cons_self, .empty rfl⟩
    · exact (RuleDef.hasFault_of_mem hrules).imp_left fun ⟨rule, hrule, hfault⟩ =>
        ⟨rule, List.mem_cons_of_mem _ hrule, hfault⟩
  | .mk kind (pattern :: patterns) :: rules =>
    rw [RuleDef.faults, List.mem_append] at h
    simp only [RuleDef.inner, List.mem_append]
    rcases h with hpatterns | hrules
    · rcases PatternDef.hasFault_of_mem hpatterns with ⟨p, hp, hfault⟩ | ⟨g, hg, hfault⟩
      · exact .inl ⟨_, List.mem_cons_self, .pattern hp hfault⟩
      · exact .inr ⟨g, .inl hg, hfault⟩
    · rcases RuleDef.hasFault_of_mem hrules with ⟨rule, hrule, hfault⟩ | ⟨g, hg, hfault⟩
      · exact .inl ⟨rule, List.mem_cons_of_mem _ hrule, hfault⟩
      · exact .inr ⟨g, .inr hg, hfault⟩

theorem PatternDef.hasFault_of_mem {kind : String} {patterns : List PatternDef} {e : GrammarError}
    (h : e ∈ PatternDef.faults known kind patterns) :
    (∃ p ∈ patterns, p.HasFault known kind e) ∨
      ∃ g ∈ PatternDef.inner patterns, g.HasFault known e := by
  match patterns with
  | [] => contradiction
  | .mk head inside :: patterns =>
    rw [PatternDef.faults, List.mem_append, List.mem_append] at h
    simp only [PatternDef.inner, List.mem_append]
    rcases h with (hhead | hinside) | hpatterns
    · exact .inl ⟨_, List.mem_cons_self, PatternHead.hasFault_of_mem hhead⟩
    · rcases InsideDef.hasFault_of_mem hinside with ⟨name, rfl, hknown, rfl⟩ | ⟨g, hg, hfault⟩
      · exact .inl ⟨_, List.mem_cons_self, .inside rfl hknown⟩
      · exact .inr ⟨g, .inl hg, hfault⟩
    · rcases PatternDef.hasFault_of_mem hpatterns with ⟨p, hp, hfault⟩ | ⟨g, hg, hfault⟩
      · exact .inl ⟨p, List.mem_cons_of_mem _ hp, hfault⟩
      · exact .inr ⟨g, .inr hg, hfault⟩

theorem InsideDef.hasFault_of_mem {inside : InsideDef} {e : GrammarError}
    (h : e ∈ inside.faults known) :
    (∃ name, inside = .language name ∧ known name = false ∧ e = .unknownLanguage name) ∨
      ∃ g ∈ inside.inner, g.HasFault known e := by
  match inside with
  | .none => contradiction
  | .language name => exact .inl ⟨name, rfl, eq_of_mem_languageFaults h⟩
  | .grammar d => exact .inr (GrammarDef.hasFault_of_mem h)

end

/-! ### What is reported -/

/-- A result is that there are no faults, or the first of them. -/
inductive Reports {α : Type} : Except GrammarError α → List GrammarError → Prop where
  | ok {a : α} : Reports (.ok a) []
  | error {e : GrammarError} {more : List GrammarError} : Reports (.error e) (e :: more)

namespace Reports

variable {α β : Type} {x : Except GrammarError α} {f : α → Except GrammarError β}
  {faults others : List GrammarError}

theorem bind (hx : Reports x faults) (hf : ∀ a, Reports (f a) others) :
    Reports (x >>= f) (faults ++ others) := by
  cases hx with
  | ok => exact hf _
  | error => exact .error

/-- What cannot fail any more adds no faults. -/
theorem bind_ok (hx : Reports x faults) (g : α → β) :
    Reports (x >>= fun a => .ok (g a)) faults := by
  cases hx with
  | ok => exact .ok
  | error => exact .error

theorem exists_ok_iff (h : Reports x faults) : (∃ a, x = .ok a) ↔ faults = [] := by
  cases h with
  | ok => simp
  | error => simp

theorem exists_pair_iff {x : Except GrammarError (α × β)} (h : Reports x faults) :
    (∃ a b, x = .ok (a, b)) ↔ faults = [] := by
  rw [← h.exists_ok_iff, Prod.exists]

theorem eq_error_iff (h : Reports x faults) (e : GrammarError) :
    x = .error e ↔ faults.head? = some e := by
  cases h with
  | ok => simp
  | error => simp

end Reports

namespace Compiler

variable (c : Compiler)

/-- Whether a definition can name a language. -/
def knows (name : String) : Bool :=
  (c.resolve name).isSome

theorem language_reports (name : String) :
    Reports (c.language name) (languageFaults c.knows name) := by
  rw [language, languageFaults, knows]
  cases c.resolve name with
  | none => exact .error
  | some id => exact .ok

theorem rest_reports (next : Option String) :
    Reports (c.rest next) (next.toList.flatMap (languageFaults c.knows)) := by
  cases next with
  | none => exact .ok
  | some name =>
    rw [Option.toList_some, List.flatMap_singleton]
    exact (c.language_reports name).bind_ok _

theorem regex_reports (kind : String) (head : PatternHead) :
    Reports (regex kind head.source) (head.faults kind) := by
  rw [regex_eq, PatternHead.faults]
  cases Regex.compile head.source.toList with
  | ok r => exact .ok
  | error cause => exact .error

mutual

/-- Compiling a definition reports its first fault. -/
theorem grammar_reports (d : GrammarDef) (pending : Array Grammar) :
    Reports (c.grammar pending d) (d.faults c.knows) := by
  match d with
  | .mk rules next =>
    rw [grammar, GrammarDef.faults]
    exact (rules_reports rules _).bind fun _ => (c.rest_reports next).bind_ok _

theorem rules_reports (rules : List RuleDef) (pending : Array Grammar) :
    Reports (c.rules pending rules) (RuleDef.faults c.knows rules) := by
  match rules with
  | [] => exact .ok
  | .mk kind [] :: rules => exact .error
  | .mk kind (pattern :: patterns) :: rules =>
    rw [Compiler.rules, rule, RuleDef.faults]
    · have hrule := (patterns_reports kind (pattern :: patterns) pending).bind_ok
        fun compiled => ((kind, compiled.1), compiled.2)
      exact hrule.bind fun entry => (rules_reports rules entry.2).bind_ok _
    · simp

theorem patterns_reports (kind : String) (patterns : List PatternDef) (pending : Array Grammar) :
    Reports (c.patterns pending kind patterns) (PatternDef.faults c.knows kind patterns) := by
  match patterns with
  | [] => exact .ok
  | .mk head inside :: patterns =>
    rw [Compiler.patterns, pattern, PatternDef.faults]
    have hpattern := (regex_reports kind head).bind fun r =>
      (inside_reports inside pending).bind_ok fun out => (assemble head r out.1, out.2)
    exact hpattern.bind fun first => (patterns_reports kind patterns first.2).bind_ok _

theorem inside_reports (inside : InsideDef) (pending : Array Grammar) :
    Reports (c.inside pending inside) (inside.faults c.knows) := by
  match inside with
  | .none => exact .ok
  | .language name =>
    rw [Compiler.inside, InsideDef.faults]
    exact (c.language_reports name).bind_ok _
  | .grammar d =>
    rw [Compiler.inside, InsideDef.faults]
    exact (grammar_reports d pending).bind_ok _

end

end Compiler

namespace Store

/-- Whether a definition of `language` can name a language: it can name those that are registered,
    and itself. -/
def knows (s : Store) (language name : String) : Bool :=
  name = language || s.contains name

/-- What is wrong with the base of an extension and the place in it. -/
def baseFaults (s : Store) (base : String) (placement : Placement) : List GrammarError :=
  match s.get? base with
  | none => [.unknownLanguage base]
  | some id =>
    match placement with
    | .atEnd => []
    | .before kind => if (s.rules id).contains kind then [] else [.unknownKind kind]

variable (s : Store)

theorem knows_compilerFor (language : String) :
    (s.compilerFor language).knows = s.knows language := by
  funext name
  rw [Compiler.knows, compilerFor, knows, contains, Table.contains]
  by_cases hname : name = language
  · simp [hname]
  · simp [hname, get?]

theorem define_reports (language : String) (d : GrammarDef) :
    Reports (s.define language d) (d.faults (s.knows language)) := by
  rw [define, ← knows_compilerFor]
  exact ((s.compilerFor language).grammar_reports d _).bind_ok _

theorem restFrom_reports (c : Compiler) (base : Option GrammarId) (next : Option String) :
    Reports (Work.restFrom c base next) (next.toList.flatMap (languageFaults c.knows)) := by
  cases next with
  | none => exact .ok
  | some name => exact c.rest_reports (some name)

theorem override_reports (language : String) (base : GrammarId) (d : GrammarDef)
    (placement : Placement) :
    Reports (Work.override s language base d placement) (d.faults (s.knows language)) := by
  obtain ⟨rules, next⟩ := d
  rw [Work.override, ← knows_compilerFor, GrammarDef.faults]
  exact ((s.compilerFor language).rules_reports rules _).bind fun _ =>
    (restFrom_reports _ _ next).bind_ok _

/-- An extension reports what is wrong with its base before what is wrong with its definition. -/
theorem extendAt_reports (language base : String) (d : GrammarDef) (placement : Placement) :
    Reports (s.extendAt language base d placement)
      (s.baseFaults base placement ++ d.faults (s.knows language)) := by
  rw [Work.extendAt_eq, baseFaults]
  cases s.get? base with
  | none => exact .error
  | some id =>
    refine Reports.bind ?_ fun _ => s.override_reports language id d placement
    cases placement with
    | atEnd => exact .ok
    | before kind =>
      dsimp only [Work.checkPlace]
      split
      · exact .ok
      · exact .error

/-- What is reported is wrong with a grammar of the definition, and the kind that it names is that
    of the rule in this grammar. -/
theorem hasFault_of_define {language : String} {d : GrammarDef} {e : GrammarError}
    (h : s.define language d = .error e) :
    ∃ g ∈ d.grammars, g.HasFault (s.knows language) e :=
  GrammarDef.hasFault_of_mem
    (List.mem_of_mem_head? (((s.define_reports language d).eq_error_iff e).1 h))

/-- A language is defined if at every depth every kind of the definition has a pattern, all
    patterns are regular expressions and all languages that it names are registered or the one that
    is defined. Otherwise the first fault is reported. For an extension the base must be
    registered, and have the kind that new ones go before, and this is reported first. -/
theorem define_reports_first (language : String) (d : GrammarDef) :
    ((∃ root t, s.define language d = .ok (root, t)) ↔
      ∀ e ∈ d.grammars, e.Sound (s.knows language)) ∧
    (∀ e, s.define language d = .error e ↔
      (d.faults (s.knows language)).head? = some e) ∧
    ∀ base placement,
      ((∃ root t, s.extendAt language base d placement = .ok (root, t)) ↔
        (∃ id, s.get? base = some id ∧
          ∀ kind, placement = .before kind → (s.rules id).contains kind) ∧
        ∀ e ∈ d.grammars, e.Sound (s.knows language)) ∧
      ∀ e, s.extendAt language base d placement = .error e ↔
        (s.baseFaults base placement ++ d.faults (s.knows language)).head? = some e := by
  have hdefine := s.define_reports language d
  refine ⟨hdefine.exists_pair_iff.trans d.faults_eq_nil, hdefine.eq_error_iff, ?_⟩
  intro base placement
  have hextend := s.extendAt_reports language base d placement
  have hbase : s.baseFaults base placement = [] ↔ ∃ id, s.get? base = some id ∧
      ∀ kind, placement = .before kind → (s.rules id).contains kind := by
    unfold baseFaults
    cases s.get? base <;> cases placement <;> simp
  refine ⟨hextend.exists_pair_iff.trans ?_, hextend.eq_error_iff⟩
  rw [List.append_eq_nil_iff, hbase, d.faults_eq_nil]

end Store

end SyntaxHue
