import SyntaxHue.Proofs.Grammar.Extend

/-!
# Rules that continue those of a grammar

The rules that tokenizing applies are a grammar's own and behind them those of its `rest`, one
level deep: what the `rest` is itself continued with has no part in them. A kind that both have
keeps its place, and has the patterns of the `rest`. Since the `rest` is looked up when rules are
applied, they follow when it is rebuilt.
-/

namespace SyntaxHue

namespace Store

variable {s t : Store} {id rest : GrammarId}

/-- The rules that continue those of a grammar: the ones that its `rest` has itself. -/
def restRules (s : Store) (id : GrammarId) : Table Rule :=
  match (s.grammar? id).bind Grammar.rest with
  | some rest => s.rules rest
  | none => .empty

/-- `rules` are those in `own` with those in `rest` over and behind them. -/
structure Overlays (own rest rules : Table Rule) : Prop where
  names : rules.names = own.names ++ rest.names.filter (· ∉ own.names)
  nodup : rules.names.Nodup
  ofRest : ∀ entry ∈ rest.entries, rules.get? entry.1 = some entry.2
  ofOwn : ∀ kind, kind ∉ rest.names → rules.get? kind = own.get? kind
  only : ∀ entry ∈ rules.entries, entry ∈ own.entries ∨ entry ∈ rest.entries

theorem overlays_putAll {own rest : Table Rule} (hown : own.names.Nodup)
    (hrest : rest.names.Nodup) : Overlays own rest (own.putAll rest.entries) := by
  have hfound : ∀ kind, (own.putAll rest.entries).get? kind =
      (rest.get? kind).or (own.get? kind) := by
    intro kind
    exact Table.get?_putAll hrest
  constructor
  · exact Table.names_putAll hrest
  · exact Table.nodup_names_putAll hown _
  · intro entry hentry
    have hentry' : rest.get? entry.1 = some entry.2 := Table.get?_of_mem hrest hentry
    rw [hfound, hentry']
    rfl
  · intro kind hkind
    rw [hfound, Table.get?_eq_none hkind]
    rfl
  · intro entry hentry
    exact Table.mem_putAll hentry

theorem restRules_of_rest (h : (s.grammar? id).bind Grammar.rest = some rest) :
    s.restRules id = s.rules rest := by
  rw [restRules, h]

theorem effectiveRules_eq (s : Store) (id : GrammarId) :
    s.effectiveRules id = (s.rules id).putAll (s.restRules id).entries := by
  rw [effectiveRules, restRules, rules]
  cases s.grammar? id with
  | none => rfl
  | some g =>
    dsimp only
    rw [Option.bind_some]
    cases g.rest <;> rfl

theorem Closed.nodup_restRules (hs : s.Closed) (id : GrammarId) :
    (s.restRules id).names.Nodup := by
  unfold restRules
  split
  · exact (hs.rules _).1
  · exact List.nodup_nil

theorem Closed.overlays (hs : s.Closed) (id : GrammarId) :
    Overlays (s.rules id) (s.restRules id) (s.effectiveRules id) := by
  rw [effectiveRules_eq]
  exact overlays_putAll (hs.rules id).1 (hs.nodup_restRules id)

/-! ### When the rest is rebuilt -/

/-- In `t`, where `rest` has been rebuilt with `d` before a kind, the grammar `id` that it continues
    applies its own rules with the rebuilt ones over and behind them. -/
structure Follows (s : Store) (id rest : GrammarId) (before : String) (d : GrammarDef) (t : Store) :
    Prop where
  rest_eq : (t.grammar? id).bind Grammar.rest = some rest
  own_eq : id ≠ rest → t.rules id = s.rules id
  rebuilt : ∃ compiled, s.RebuildsOnly rest before d compiled t
  overlays : Overlays (t.rules id) (t.rules rest) (t.effectiveRules id)

theorem Rebuilds.follows {before : String} {d : GrammarDef} {compiled : List (String × Rule)}
    {pending : Array Grammar} (h : s.Rebuilds rest before d compiled pending t) (hs : s.Closed)
    (hid : (s.grammar? id).bind Grammar.rest = some rest) : s.Follows id rest before d t := by
  have honly := h.only hs
  obtain ⟨own, hown, hnext⟩ := Option.bind_eq_some_iff.1 hid
  have hother : id ≠ rest → t.grammar? id = s.grammar? id :=
    honly.others id (lt_of_grammar? hown)
  have hrest : (t.grammar? id).bind Grammar.rest = some rest := by
    by_cases hself : id = rest
    · -- a grammar that continues itself keeps its rest when its rules are rebuilt
      subst hself
      obtain ⟨g, hg, ht⟩ := honly.rebuilt
      rw [hg] at hid
      rw [ht]
      exact hid
    · rw [hother hself, hid]
  constructor
  · exact hrest
  · intro hne
    rw [Store.rules, Store.rules, hother hne]
  · exact ⟨compiled, honly⟩
  · rw [← restRules_of_rest hrest]
    exact (h.closed hs).overlays id

/-- The rules that a grammar applies are exactly its own kinds, in order, and behind them those of
    its `rest` that it lacks, in the order of the `rest`, and no kind comes twice. A kind of the
    `rest` has the patterns of the `rest` and any other kind its own, so that nothing comes from
    further on. This holds of every grammar in every store that can be reached, a grammar that
    continues itself included, and after every insertion into the `rest` it holds with the rebuilt
    rules. -/
theorem overlays_of_reachable (hs : s.Reachable) (id : GrammarId) :
    Overlays (s.rules id) (s.restRules id) (s.effectiveRules id) ∧
    ∀ (op : Operation) answer t rest before d, op.apply s = .ok (answer, t) →
      op.inserts s = some (rest, before, d) → (s.grammar? id).bind Grammar.rest = some rest →
        s.Follows id rest before d t := by
  have hclosed := hs.closed
  refine ⟨hclosed.overlays id, ?_⟩
  intro op answer t rest before d happly hinserts hrest
  cases Operation.effect_of_apply hclosed happly with
  | register hname _ =>
    rw [inserts_eq_none hname] at hinserts
    contradiction
  | rebuild hinserts' hrebuilds _ =>
    rw [hinserts', Option.some.injEq, Prod.mk.injEq, Prod.mk.injEq] at hinserts
    obtain ⟨rfl, rfl, rfl⟩ := hinserts
    exact hrebuilds.follows hclosed hrest

/-- A store with a language that continues itself, one that is continued with it, and one that is
    continued with the latter. -/
def chained : Store :=
  let numbers := Operation.define "numbers"
    (.ofRules [.mk "number" [.plain "\\d+"], .mk "sign" [.plain "[+-]"]] (some "numbers"))
  let words := Operation.define "words"
    (.ofRules [.mk "word" [.plain "\\w+"], .mk "space" [.plain " "]] (some "numbers"))
  let lines := Operation.define "lines"
    (.ofRules [.mk "space" [.plain "\\s"], .mk "line" [.plain "\\n"]] (some "words"))
  let first := (numbers.perform ⟨.empty, #[]⟩).2
  let second := (words.perform first).2
  (lines.perform second).2.store

theorem reachable_chained : chained.Reachable :=
  .perform _ (.perform _ (.perform _ .empty))

-- The kinds of `numbers` are not there, and `space` is where `lines` has it.
example : (chained.effectiveRules ⟨2⟩).names = ["space", "line", "word"] := by
  decide +kernel

/-- Rules are inserted into the middle one of the languages, over a kind that the last one has. -/
theorem overlays_of_reachable_chained :
    chained.Reachable ∧
    Overlays (chained.rules ⟨2⟩) (chained.restRules ⟨2⟩) (chained.effectiveRules ⟨2⟩) ∧
    ∃ answer t, (Operation.insertBefore ⟨1⟩ "space" words).apply chained = .ok (answer, t) ∧
      (chained.grammar? ⟨2⟩).bind Grammar.rest = some ⟨1⟩ ∧
      chained.Follows ⟨2⟩ ⟨1⟩ "space" words t := by
  have hinsert : ((Operation.insertBefore ⟨1⟩ "space" words).apply chained).isOk = true := by
    decide +kernel
  have hrest : (chained.grammar? ⟨2⟩).bind Grammar.rest = some ⟨1⟩ := by decide +kernel
  obtain ⟨answer, t, happly⟩ := exists_of_isOk hinsert
  obtain ⟨hoverlays, hfollows⟩ := overlays_of_reachable reachable_chained ⟨2⟩
  exact ⟨reachable_chained, hoverlays, answer, t, happly, hrest,
    hfollows _ answer t ⟨1⟩ "space" words happly rfl hrest⟩

end Store

end SyntaxHue
