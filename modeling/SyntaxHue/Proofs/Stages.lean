import SyntaxHue.Highlighter
import SyntaxHue.Proofs.Markup.Wrap

/-!
# The stages of an element

A highlighter runs callbacks at fixed stages, and whether a stage comes depends on what the
callbacks before it have left. `Course` lists the stages that an element can go through, with what
the callbacks see at each. An element goes through one such course, and the callbacks that are
called on the way are those of its stages and no others.
-/

namespace SyntaxHue

/-- What callbacks see and leave: an environment and a state. -/
abbrev Moment (σ : Type) := HighlightEnv × σ

/-- A stage that has been reached. -/
structure Turn (σ : Type) where
  /-- The name of the callbacks that run. -/
  name : String
  /-- What the first of them sees. -/
  before : Moment σ

/-- The calls at a stage. -/
def Turn.calls {σ : Type} (hooks : List (String × Hook HighlightEnv σ)) (turn : Turn σ) :
    List (Call HighlightEnv) :=
  HookRegistry.calls hooks turn.name turn.before.1 turn.before.2

namespace Highlighter

variable {σ : Type}

/-- What a highlighter is made of. The callbacks are in the order in which they were added. -/
structure Parts (σ : Type) where
  store : Store
  settings : Settings
  hooks : List (String × Hook HighlightEnv σ)
  wrapHooks : List (String × Hook WrapEnv σ)

namespace Parts

/-- The highlighter that is made of the parts. -/
def highlighter (parts : Parts σ) : Highlighter σ where
  store := parts.store
  hooks := .ofList parts.hooks
  wrapHooks := .ofList parts.wrapHooks
  settings := parts.settings

/-- The parts with callbacks that note their calls. The callbacks for tokens note nothing. -/
def noting (parts : Parts σ) : Parts (σ × List (Call HighlightEnv)) where
  store := parts.store
  settings := parts.settings
  hooks := HookRegistry.noting parts.hooks
  wrapHooks := HookRegistry.framed parts.wrapHooks

/-- The callbacks under a name leave `n` of `m`. -/
def Fires (parts : Parts σ) (name : String) (m n : Moment σ) : Prop :=
  HookRegistry.outcome parts.hooks name m.1 m.2 = n

/-- There is a limit to the length of code, in bytes, and the code is beyond it. -/
def TooLong (parts : Parts σ) (code : String) : Prop :=
  0 < parts.settings.maxInputBytes ∧ parts.settings.maxInputBytes < code.utf8ByteSize

/-- What comes between the stages `before-highlight` and `before-insert`: the stages that are
    reached, and what the callbacks of `before-insert` are going to see. -/
inductive Inside (parts : Parts σ) (m : Moment σ) :
    List (Turn σ) → Except Fault (Moment σ) → Prop
  /-- Without a grammar the code is escaped. -/
  | ungrammatical (hgrammar : m.1.grammar = none) :
      Inside parts m [] (.ok ({ m.1 with highlighted := Markup.escapedText m.1.code }, m.2))
  /-- The code is escaped if there is no grammar any more, or it is too long. -/
  | untokenized {n : Moment σ} (hgrammar : m.1.grammar ≠ none)
      (hfires : parts.Fires "before-tokenize" m n)
      (hskip : n.1.grammar = none ∨ parts.TooLong n.1.code) :
      Inside parts m [⟨"before-tokenize", m⟩]
        (.ok ({ n.1 with highlighted := Markup.escapedText n.1.code }, n.2))
  /-- The code is tokenized, and the tokens are rendered as the callbacks leave them. -/
  | tokenized {n after : Moment σ} {grammar : GrammarId} {tokens : List Node} {markup : String}
      {st : σ} (hgrammar : m.1.grammar ≠ none) (hfires : parts.Fires "before-tokenize" m n)
      (hstill : n.1.grammar = some grammar) (hshort : ¬ parts.TooLong n.1.code)
      (htokens : parts.store.tokenize n.1.code grammar = .ok tokens)
      (hafter : parts.Fires "after-tokenize" ({ n.1 with tokens := tokens }, n.2) after)
      (hmarkup : Markup.Renders parts.settings.render parts.wrapHooks after.1.language
        after.1.tokens after.2 markup st) :
      Inside parts m
        [⟨"before-tokenize", m⟩, ⟨"after-tokenize", ({ n.1 with tokens := tokens }, n.2)⟩]
        (.ok ({ after.1 with highlighted := markup }, st))
  /-- The code cannot be tokenized. -/
  | broken {n : Moment σ} {grammar : GrammarId} {fault : Fault}
      (hgrammar : m.1.grammar ≠ none) (hfires : parts.Fires "before-tokenize" m n)
      (hstill : n.1.grammar = some grammar) (hshort : ¬ parts.TooLong n.1.code)
      (hfault : parts.store.tokenize n.1.code grammar = .error fault) :
      Inside parts m [⟨"before-tokenize", m⟩] (.error fault)

/-- The stages of an element, in order, and the markup that the element gets. -/
inductive Course (parts : Parts σ) (m : Moment σ) :
    List (Turn σ) → Except Fault (String × σ) → Prop
  /-- Without code there is only the last stage after the first. -/
  | blank {n last : Moment σ} (hsanity : parts.Fires "before-sanity-check" m n)
      (hcode : n.1.code = "") (hcomplete : parts.Fires "complete" n last) :
      Course parts m [⟨"before-sanity-check", m⟩, ⟨"complete", n⟩] (.ok (last.1.code, last.2))
  | whole {n begun inserted after completed last : Moment σ} {turns : List (Turn σ)}
      (hsanity : parts.Fires "before-sanity-check" m n) (hcode : n.1.code ≠ "")
      (hbegin : parts.Fires "before-highlight" n begun)
      (hinside : parts.Inside begun turns (.ok inserted))
      (hinsert : parts.Fires "before-insert" inserted after)
      (hafter : parts.Fires "after-highlight" after completed)
      (hcomplete : parts.Fires "complete" completed last) :
      Course parts m
        ([⟨"before-sanity-check", m⟩, ⟨"before-highlight", n⟩] ++ turns ++
          [⟨"before-insert", inserted⟩, ⟨"after-highlight", after⟩, ⟨"complete", completed⟩])
        (.ok (last.1.highlighted, last.2))
  /-- Tokenizing fails. -/
  | broken {n begun : Moment σ} {turns : List (Turn σ)} {fault : Fault}
      (hsanity : parts.Fires "before-sanity-check" m n) (hcode : n.1.code ≠ "")
      (hbegin : parts.Fires "before-highlight" n begun)
      (hinside : parts.Inside begun turns (.error fault)) :
      Course parts m ([⟨"before-sanity-check", m⟩, ⟨"before-highlight", n⟩] ++ turns)
        (.error fault)

/-! ### Following a course -/

theorem isTooLong_iff (parts : Parts σ) (code : String) :
    parts.settings.isTooLong code = true ↔ parts.TooLong code := by
  rw [Settings.isTooLong, Bool.and_eq_true, decide_eq_true_eq, decide_eq_true_eq, TooLong]

/-- Every environment can be taken from `before-highlight` to `before-insert`. -/
theorem exists_inside (parts : Parts σ) (m : Moment σ) :
    ∃ turns outcome, parts.Inside m turns outcome := by
  by_cases hgrammar : m.1.grammar = none
  · exact ⟨_, _, .ungrammatical hgrammar⟩
  · obtain ⟨n, hfires⟩ : ∃ n, parts.Fires "before-tokenize" m n := ⟨_, rfl⟩
    cases hstill : n.1.grammar with
    | none => exact ⟨_, _, .untokenized hgrammar hfires (.inl hstill)⟩
    | some grammar =>
      by_cases hlong : parts.TooLong n.1.code
      · exact ⟨_, _, .untokenized hgrammar hfires (.inr hlong)⟩
      · cases htokens : parts.store.tokenize n.1.code grammar with
        | error fault => exact ⟨_, _, .broken hgrammar hfires hstill hlong htokens⟩
        | ok tokens =>
          obtain ⟨after, hafter⟩ : ∃ after,
            parts.Fires "after-tokenize" ({ n.1 with tokens := tokens }, n.2) after := ⟨_, rfl⟩
          obtain ⟨markup, st, hmarkup⟩ := Markup.exists_renders after.1.tokens after.2
          exact ⟨_, _, .tokenized hgrammar hfires hstill hlong htokens hafter hmarkup⟩

/-- Every environment has a course. -/
theorem exists_course_of (parts : Parts σ) (m : Moment σ) :
    ∃ turns outcome, parts.Course m turns outcome := by
  obtain ⟨n, hsanity⟩ : ∃ n, parts.Fires "before-sanity-check" m n := ⟨_, rfl⟩
  by_cases hcode : n.1.code = ""
  · exact ⟨_, _, .blank hsanity hcode rfl⟩
  · obtain ⟨begun, hbegin⟩ : ∃ begun, parts.Fires "before-highlight" n begun := ⟨_, rfl⟩
    obtain ⟨turns, outcome, hinside⟩ := parts.exists_inside begun
    cases outcome with
    | error fault => exact ⟨_, _, .broken hsanity hcode hbegin hinside⟩
    | ok inserted => exact ⟨_, _, .whole hsanity hcode hbegin hinside rfl rfl rfl⟩

/-- No stage is reached twice. -/
theorem Course.nodup {parts : Parts σ} {m : Moment σ} {turns : List (Turn σ)}
    {outcome : Except Fault (String × σ)} (hcourse : parts.Course m turns outcome) :
    (turns.map (·.name)).Nodup := by
  cases hcourse with
  | blank =>
    simp only [List.map_cons, List.map_nil]
    decide
  | whole _ _ _ hinside =>
    cases hinside <;> simp only [List.map_append, List.map_cons, List.map_nil] <;> decide
  | broken _ _ _ hinside =>
    cases hinside
    simp only [List.map_append, List.map_cons, List.map_nil]
    decide

end Parts

/-- `g` does what a highlighter made of `parts` does, on states that also hold the stages that have
    been reached. -/
structure Watches {τ : Type} (g : Highlighter τ) (parts : Parts σ)
    (embed : σ → List (Turn σ) → τ) : Prop where
  store : g.store = parts.store
  settings : g.settings = parts.settings
  runStage : ∀ (stage : Stage) {name m n}, parts.Fires name m n → stage.name = name → ∀ turns,
    g.runStage stage m.1 (embed m.2 turns) = (n.1, embed n.2 (turns ++ [⟨name, m⟩]))
  render : ∀ {language nodes st markup last},
    Markup.Renders parts.settings.render parts.wrapHooks language nodes st markup last →
    ∀ turns, g.render nodes language (embed st turns) = (markup, embed last turns)

theorem watches_self (parts : Parts σ) : parts.highlighter.Watches parts fun st _ => st where
  store := rfl
  settings := rfl
  runStage := by
    rintro stage _ m n hfires rfl -
    rw [← hfires]
    exact HookRegistry.run_ofList_eq_outcome parts.hooks stage.name m.1 m.2
  render hmarkup _ := hmarkup.render_eq

theorem watches_noting (parts : Parts σ) : parts.noting.highlighter.Watches parts
    fun st turns => (st, turns.flatMap (Turn.calls parts.hooks)) where
  store := rfl
  settings := rfl
  runStage := by
    rintro stage _ m n hfires rfl turns
    have hrun := HookRegistry.run_noting parts.hooks stage.name m.1 m.2
      (turns.flatMap (Turn.calls parts.hooks))
    rw [hfires] at hrun
    rw [List.flatMap_append, List.flatMap_singleton]
    exact hrun
  render hmarkup turns := hmarkup.render_framed _

/-- What is done between `before-highlight` and `before-insert`. -/
def processed (h : Highlighter σ) (m : Moment σ) : Except Fault (Moment σ) :=
  if m.1.grammar.isSome then h.process m.1 m.2 else .ok (escaped m.1, m.2)

/-- What is done from `before-insert` on. -/
def close (h : Highlighter σ) (m : Moment σ) : String × σ :=
  let (env, st) := h.runStage .beforeInsert m.1 m.2
  let (env, st) := h.runStage .afterHighlight env st
  let (env, st) := h.runStage .complete env st
  (env.highlighted, st)

theorem processElement_of_code {h : Highlighter σ} {env given : HighlightEnv} {st mid : σ}
    {begun : Moment σ} (hsanity : h.runStage .beforeSanityCheck env st = (given, mid))
    (hcode : given.code ≠ "") (hbegin : h.runStage .beforeHighlight given mid = begun) :
    h.processElement env st = (h.processed begun).map h.close := by
  have hempty : ¬ given.code.isEmpty = true := fun h => hcode (String.isEmpty_iff.1 h)
  rw [processElement, hsanity]
  dsimp only
  rw [if_neg hempty, hbegin, processed]
  split
  · cases h.process begun.1 begun.2 <;> rfl
  · rfl

theorem escaped_eq (env : HighlightEnv) :
    escaped env = { env with highlighted := Markup.escapedText env.code } := by
  rw [escaped, Markup.escape_eq]

section

variable {τ : Type} {g : Highlighter τ} {parts : Parts σ} {embed : σ → List (Turn σ) → τ}
  {m : Moment σ} {turns : List (Turn σ)}

theorem Watches.isTooLong_eq (hwatch : g.Watches parts embed) {code : String}
    (hshort : ¬ parts.TooLong code) : g.settings.isTooLong code = false := by
  rw [hwatch.settings, Bool.eq_false_iff]
  exact mt (parts.isTooLong_iff code).1 hshort

theorem Watches.inside (hwatch : g.Watches parts embed) {outcome : Except Fault (Moment σ)}
    (hinside : parts.Inside m turns outcome) (earlier : List (Turn σ)) :
    g.processed (m.1, embed m.2 earlier) =
      outcome.map fun n => (n.1, embed n.2 (earlier ++ turns)) := by
  rw [processed]
  dsimp only
  cases hinside with
  | ungrammatical hgrammar =>
    rw [hgrammar, Option.isSome_none, if_neg Bool.false_ne_true, List.append_nil, escaped_eq]
    rfl
  | untokenized hgrammar hfires hskip =>
    rw [if_pos (Option.isSome_iff_ne_none.2 hgrammar), process,
      hwatch.runStage .beforeTokenize hfires rfl]
    dsimp only
    split
    · rw [escaped_eq]
      rfl
    · rename_i grammar hstill
      have hlong := hskip.resolve_left fun hnone => by simp [hnone] at hstill
      rw [if_pos (hwatch.settings ▸ (parts.isTooLong_iff _).2 hlong), escaped_eq]
      rfl
  | tokenized hgrammar hfires hstill hshort htokens hafter hmarkup =>
    have hlater := hwatch.runStage .afterTokenize hafter rfl (earlier ++ [⟨"before-tokenize", m⟩])
    rw [if_pos (Option.isSome_iff_ne_none.2 hgrammar), process,
      hwatch.runStage .beforeTokenize hfires rfl, hwatch.store]
    simp only [hstill] at hlater
    simp only [hstill, hwatch.isTooLong_eq hshort, htokens]
    have hrender := hwatch.render hmarkup
    change Except.ok _ = Except.ok _
    simp only [hlater, hrender, List.append_assoc, List.singleton_append]
  | broken hgrammar hfires hstill hshort hfault =>
    rw [if_pos (Option.isSome_iff_ne_none.2 hgrammar), process,
      hwatch.runStage .beforeTokenize hfires rfl, hwatch.store]
    simp only [hstill, hwatch.isTooLong_eq hshort, hfault]
    rfl

/-- A highlighter that is watched takes an element through its course. -/
theorem Watches.course (hwatch : g.Watches parts embed) {outcome : Except Fault (String × σ)}
    (hcourse : parts.Course m turns outcome) :
    g.processElement m.1 (embed m.2 []) =
      outcome.map fun result => (result.1, embed result.2 turns) := by
  cases hcourse with
  | @blank n last hsanity hcode hcomplete =>
    have hempty : n.1.code.isEmpty = true := String.isEmpty_iff.2 hcode
    rw [processElement, hwatch.runStage .beforeSanityCheck hsanity rfl]
    dsimp only
    rw [if_pos hempty, hwatch.runStage .complete hcomplete rfl]
    rfl
  | @whole n begun inserted after completed last turns hsanity hcode hbegin hinside hinsert hafter
      hcomplete =>
    have hall := processElement_of_code (hwatch.runStage .beforeSanityCheck hsanity rfl []) hcode
      (hwatch.runStage .beforeHighlight hbegin rfl _)
    rw [hwatch.inside hinside] at hall
    refine hall.trans ?_
    change Except.ok (g.close _) = Except.ok _
    simp only [close, hwatch.runStage .beforeInsert hinsert rfl,
      hwatch.runStage .afterHighlight hafter rfl, hwatch.runStage .complete hcomplete rfl]
    simp only [List.append_assoc, List.nil_append, List.cons_append]
  | @broken n begun turns fault hsanity hcode hbegin hinside =>
    have hall := processElement_of_code (hwatch.runStage .beforeSanityCheck hsanity rfl []) hcode
      (hwatch.runStage .beforeHighlight hbegin rfl _)
    rw [hwatch.inside hinside] at hall
    exact hall

end

theorem highlightElement_eq {h : Highlighter σ} {e : CodeElement} {st : σ}
    {outcome : Except Fault (String × σ)}
    (hmarkup : h.processElement
      { code := e.code, grammar := h.store.get? e.language, language := e.language } st = outcome) :
    h.highlightElement e st = outcome.map fun result =>
      (⟨e.language, e.normalizedClass e.language, result.1⟩, result.2) := by
  rw [highlightElement, hmarkup]
  cases outcome <;> rfl

/-- An element goes through a course of stages, each of them at most once. The callbacks that are
    called, and what they see, are those of its stages, in the order in which they were added. -/
theorem exists_course (parts : Parts σ) (e : CodeElement) (st : σ) :
    ∃ turns outcome,
      parts.Course
        ({ code := e.code, grammar := parts.store.get? e.language, language := e.language,
           tokens := [], highlighted := "" }, st)
        turns outcome ∧
      (turns.map (·.name)).Nodup ∧
      parts.highlighter.highlightElement e st =
        outcome.map (fun result =>
          (⟨e.language, e.normalizedClass e.language, result.1⟩, result.2)) ∧
      parts.noting.highlighter.highlightElement e (st, []) =
        outcome.map (fun result =>
          (⟨e.language, e.normalizedClass e.language, result.1⟩, result.2,
            turns.flatMap (Turn.calls parts.hooks))) := by
  obtain ⟨turns, outcome, hcourse⟩ := parts.exists_course_of
    ({ code := e.code, grammar := parts.store.get? e.language, language := e.language,
       tokens := [], highlighted := "" }, st)
  refine ⟨turns, outcome, hcourse, hcourse.nodup, ?_, ?_⟩
  · have hself := (watches_self parts).course hcourse
    rw [highlightElement_eq hself]
    cases outcome <;> rfl
  · have hnoting := (watches_noting parts).course hcourse
    have helement := highlightElement_eq (h := parts.noting.highlighter) hnoting
    refine helement.trans ?_
    cases outcome <;> rfl

end Highlighter

end SyntaxHue
