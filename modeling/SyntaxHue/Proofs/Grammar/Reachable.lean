import SyntaxHue.Proofs.Grammar.Handles
import SyntaxHue.Proofs.Tokenizer.Termination

/-!
# Stores that operations have made

An operation that succeeds registers a name for a grammar, with new slots behind those that were
there, or it rebuilds the rules of one grammar. `Effect` says so for all operations at once, and what
holds of every store that can be reached is read off from it.
-/

namespace SyntaxHue

open Compiler

namespace Store

variable {s t : Store} {name : String} {n : Nat}

/-- `t` is `s` with `name` for the grammar `root` and with `pending` behind the slots of `s`. -/
structure Registers (s : Store) (name : String) (root : GrammarId) (pending : Array Grammar)
    (t : Store) : Prop where
  eq : t = ⟨s.slots ++ pending, s.languages.put name root⟩
  root_lt : root.index < s.slots.size + pending.size
  within : ∀ g ∈ pending, g.Within (s.slots.size + pending.size)

/-- `t` is `s` with the compiled rules of `d` right before a kind of the grammar `target`, and with
    the grammars that `d` defines inside behind the slots of `s`. -/
structure Rebuilds (s : Store) (target : GrammarId) (before : String) (d : GrammarDef)
    (compiled : List (String × Rule)) (pending : Array Grammar) (t : Store) : Prop where
  compiled_eq : s.compiler.rules #[] d.rules = .ok (compiled, pending)
  eq : t = { s with slots := (s.slots ++ pending).modify target.index fun g =>
    { g with rules := spliceBefore before (.ofList compiled) (s.rules target) } }
  target_lt : target.index < s.slots.size
  rules : ∀ entry ∈ compiled, Rule.Within (s.slots.size + pending.size) entry.2
  within : ∀ g ∈ pending, g.Within (s.slots.size + pending.size)

theorem Closed.get?_lt (hs : s.Closed) {id : GrammarId} (h : s.get? name = some id) :
    id.index < s.slots.size :=
  hs.languages _ (Table.mem_of_get? h)

theorem Closed.resolves_compiler (hs : s.Closed) (hn : s.slots.size ≤ n) :
    s.compiler.Resolves n := by
  intro other id h
  exact Nat.lt_of_lt_of_le (hs.get?_lt h) hn

theorem Closed.resolves_compilerFor (hs : s.Closed) (hn : s.slots.size < n) :
    (s.compilerFor name).Resolves n := by
  intro other id h
  rw [compilerFor] at h
  dsimp only at h
  split at h
  · cases h
    exact hn
  · exact Nat.lt_trans (hs.get?_lt h) hn

theorem mem_of_grammar? {id : GrammarId} {g : Grammar} (h : s.grammar? id = some g) :
    g ∈ s.slots :=
  Array.mem_of_getElem? h

theorem lt_of_grammar? {id : GrammarId} {g : Grammar} (h : s.grammar? id = some g) :
    id.index < s.slots.size :=
  (Array.getElem?_eq_some_iff.1 h).1

theorem exists_grammar? {id : GrammarId} (h : id.index < s.slots.size) :
    ∃ g, s.grammar? id = some g :=
  ⟨s.slots[id.index], Array.getElem?_eq_getElem h⟩

theorem rules_of_grammar? {id : GrammarId} {g : Grammar} (h : s.grammar? id = some g) :
    s.rules id = g.rules := by
  rw [rules, h]

/-- The rules in a slot, and those of a slot that there is not. -/
theorem Closed.rules (hs : s.Closed) (id : GrammarId) :
    (s.rules id).names.Nodup ∧ ∀ entry ∈ (s.rules id).entries, Rule.Within s.slots.size entry.2 := by
  cases h : s.grammar? id with
  | none =>
    rw [Store.rules, h]
    exact ⟨List.nodup_nil, List.forall_mem_nil _⟩
  | some g =>
    rw [rules_of_grammar? h]
    have hg := hs.slots g (mem_of_grammar? h)
    exact ⟨hg.nodup, hg.rules⟩

/-! ### What the operations do -/

theorem Closed.registers_of_define (hs : s.Closed) {d : GrammarDef} {root : GrammarId}
    (h : s.define name d = .ok (root, t)) : ∃ pending, s.Registers name root pending t := by
  rw [define] at h
  obtain ⟨⟨root, pending⟩, hgrammar, h⟩ := exists_of_bind h
  cases h
  obtain ⟨rfl, hlt, hgrows⟩ := grammar_grows (n := s.slots.size + pending.size) hgrammar
  have hsize : 0 < pending.size := hlt
  have hresolves : (s.compilerFor name).Resolves (s.slots.size + pending.size) :=
    hs.resolves_compilerFor (by omega)
  have hnone : ∀ g ∈ (#[] : Array Grammar), g.Within (s.slots.size + pending.size) := by simp
  obtain ⟨hwithin, -⟩ := hgrows.within (Nat.le_refl _) hresolves hnone
  refine ⟨pending, rfl, ?_, hwithin⟩
  dsimp only [compilerFor, Array.size_empty]
  omega

theorem Closed.registers_of_addAlias (hs : s.Closed) {known : String} {id : GrammarId}
    (h : s.addAlias name known = .ok (id, t)) : ∃ pending, s.Registers name id pending t := by
  rw [addAlias] at h
  split at h
  · simp at h
  · rename_i hget
    cases h
    refine ⟨#[], by simp, ?_, by simp⟩
    exact hs.get?_lt hget

theorem Closed.registers_of_extendAt (hs : s.Closed) {base : String} {overrides : GrammarDef}
    {placement : Placement} {root : GrammarId}
    (h : s.extendAt name base overrides placement = .ok (root, t)) :
    ∃ pending, s.Registers name root pending t := by
  rw [Work.extendAt_eq] at h
  split at h
  · simp at h
  · rename_i baseId hbase
    obtain ⟨-, -, h⟩ := exists_of_bind h
    rw [Work.override] at h
    obtain ⟨⟨compiled, pending⟩, hrules, h⟩ := exists_of_bind h
    obtain ⟨next, hrest, h⟩ := exists_of_bind h
    cases h
    have hgrows := rules_grows (n := s.slots.size + pending.size) hrules
    have hsize : 0 < pending.size := hgrows.size_le
    have hresolves : (s.compilerFor name).Resolves (s.slots.size + pending.size) :=
      hs.resolves_compilerFor (by omega)
    have hdefault : ∀ g ∈ #[(default : Grammar)], g.Within (s.slots.size + pending.size) := by
      intro g hg
      rw [Array.mem_singleton.1 hg]
      exact Grammar.within_default _
    obtain ⟨hwithin, hcompiled⟩ := hgrows.within (Nat.le_refl _) hresolves hdefault
    obtain ⟨hbaseNodup, hbaseRules⟩ := hs.rules baseId
    -- the rest is that of the overrides or that of the base
    have hnext : ∀ id, next = some id → id.index < s.slots.size + pending.size := by
      rintro id rfl
      cases hover : overrides.rest with
      | some other =>
        rw [hover, Work.restFrom] at hrest
        cases hother : (s.compilerFor name).language other with
        | error e => simp [hother, Functor.map, Except.map] at hrest
        | ok found =>
          simp only [hother, Functor.map, Except.map, Except.ok.injEq, Option.some.injEq] at hrest
          rw [← hrest]
          exact hresolves other found (resolve_of_language hother)
      | none =>
        rw [hover, Work.restFrom, Except.ok.injEq] at hrest
        obtain ⟨g, hg, hid⟩ := Option.bind_eq_some_iff.1 hrest
        have hlt := (hs.slots g (mem_of_grammar? hg)).rest id hid
        omega
    refine ⟨_, rfl, ?_, ?_⟩
    · rw [Array.size_setIfInBounds]
      dsimp only
      omega
    · rw [Array.size_setIfInBounds]
      intro g hg
      rcases Array.mem_or_eq_of_mem_setIfInBounds hg with hg | rfl
      · exact hwithin g hg
      · refine ⟨nodup_mergeRules placement hbaseNodup (Table.nodup_names_ofList compiled), ?_, hnext⟩
        intro entry hentry
        rcases mem_mergeRules hentry with hold | hnew
        · exact (hbaseRules entry hold).mono (Nat.le_add_right _ _)
        · rcases Table.mem_putAll hnew with hnone | hnew
          · simp [Table.empty] at hnone
          · exact hcompiled entry hnew

theorem Closed.rebuilds_of_insertBefore (hs : s.Closed) {target : GrammarId} {before : String}
    {d : GrammarDef} (h : s.insertBefore target before d = .ok t) :
    ∃ compiled pending, s.Rebuilds target before d compiled pending t := by
  rw [insertBefore] at h
  cases hplace : (s.rules target).contains before with
  | false => simp [hplace, throw, throwThe, MonadExceptOf.throw, bind, Except.bind] at h
  | true =>
  simp only [hplace, Bool.not_true, Bool.false_eq_true, if_false] at h
  obtain ⟨⟨compiled, pending⟩, hrules, h⟩ := exists_of_bind h
  cases h
  have hgrows := rules_grows (n := s.slots.size + pending.size) hrules
  have hresolves : s.compiler.Resolves (s.slots.size + pending.size) :=
    hs.resolves_compiler (Nat.le_add_right _ _)
  have hnone : ∀ g ∈ (#[] : Array Grammar), g.Within (s.slots.size + pending.size) := by simp
  obtain ⟨hwithin, hcompiled⟩ := hgrows.within (Nat.le_refl _) hresolves hnone
  refine ⟨compiled, pending, hrules, rfl, ?_, hcompiled, hwithin⟩
  -- a grammar that the store does not have has no kinds
  by_contra hlt
  have hslot : s.grammar? target = none := Array.getElem?_eq_none (Nat.le_of_not_lt hlt)
  have hempty : s.rules target = .empty := by rw [Store.rules, hslot]
  rw [hempty] at hplace
  simp [Table.contains, Table.get?, Table.empty, Table.find?] at hplace

end Store

/-! ### Operations -/

namespace Operation

/-- The name that an operation registers, if it is one that registers a name. -/
def registers : Operation → Option String
  | define name _ => some name
  | extend name _ _ => some name
  | extendAt name _ _ _ => some name
  | addAlias name _ => some name
  | load _ name _ => some name
  | insertBefore .. | insertBeforeLanguage .. | addInlined .. => none

/-- The grammar that an operation rebuilds, the kind that the new rules go before, and their
    definition, if it is an operation that rebuilds a grammar. -/
def inserts (s : Store) : Operation → Option (GrammarId × String × GrammarDef)
  | insertBefore target before d => some (target, before, d)
  | insertBeforeLanguage inner before d root =>
    (s.target inner root).toOption.map fun target => (target, before, d)
  | addInlined tagName name =>
    (s.target "markup" none).toOption.map fun target =>
      (target, "tag", Language.inlined tagName name)
  | define .. | extend .. | extendAt .. | addAlias .. | load .. => none

/-- What an operation has done that has turned `s` into `t`. -/
inductive Effect (s : Store) (op : Operation) : Option GrammarId → Store → Prop where
  | register {name : String} {root : GrammarId} {pending : Array Grammar} {t : Store} :
      op.registers = some name → s.Registers name root pending t → Effect s op (some root) t
  | rebuild {answer : Option GrammarId} {target : GrammarId} {before : String} {d : GrammarDef}
      {compiled : List (String × Rule)} {pending : Array Grammar} {t : Store} :
      op.inserts s = some (target, before, d) → s.Rebuilds target before d compiled pending t →
      (∀ id, answer = some id → id = target) → Effect s op answer t

variable {s t : Store} {op : Operation} {answer : Option GrammarId}

theorem of_numbered {r : Except GrammarError (GrammarId × Store)}
    (h : numbered r = .ok (answer, t)) : ∃ root, answer = some root ∧ r = .ok (root, t) := by
  cases r with
  | error e => simp [numbered, Except.map] at h
  | ok x =>
    simp only [numbered, Except.map, Except.ok.injEq, Prod.mk.injEq] at h
    exact ⟨x.1, h.1.symm, by rw [← h.2]⟩

theorem of_silent {r : Except GrammarError Store} (h : silent r = .ok (answer, t)) :
    answer = none ∧ r = .ok t := by
  cases r with
  | error e => simp [silent, Except.map] at h
  | ok x =>
    simp only [silent, Except.map, Except.ok.injEq, Prod.mk.injEq] at h
    exact ⟨h.1.symm, by rw [h.2]⟩

theorem effect_of_insertBeforeLanguage (hs : s.Closed) {inner before : String} {d : GrammarDef}
    {root : Option String} {target : GrammarId}
    (h : s.insertBeforeLanguage inner before d root = .ok (target, t)) :
    s.target inner root = .ok target ∧ ∃ compiled pending, s.Rebuilds target before d compiled
      pending t := by
  rw [Store.insertBeforeLanguage] at h
  obtain ⟨found, htarget, h⟩ := exists_of_bind h
  obtain ⟨after, hinsert, h⟩ := exists_of_bind h
  cases h
  exact ⟨htarget, hs.rebuilds_of_insertBefore hinsert⟩

/-- All that an operation can do to a store in which no number is without a slot. -/
theorem effect_of_apply (hs : s.Closed) (h : op.apply s = .ok (answer, t)) :
    op.Effect s answer t := by
  cases op with
  | define name d =>
    obtain ⟨root, rfl, hdone⟩ := of_numbered h
    obtain ⟨pending, hregisters⟩ := hs.registers_of_define hdone
    exact .register rfl hregisters
  | extend name base overrides =>
    obtain ⟨root, rfl, hdone⟩ := of_numbered h
    obtain ⟨pending, hregisters⟩ := hs.registers_of_extendAt hdone
    exact .register rfl hregisters
  | extendAt name base overrides placement =>
    obtain ⟨root, rfl, hdone⟩ := of_numbered h
    obtain ⟨pending, hregisters⟩ := hs.registers_of_extendAt hdone
    exact .register rfl hregisters
  | insertBefore target before d =>
    obtain ⟨rfl, hdone⟩ := of_silent h
    obtain ⟨compiled, pending, hrebuilds⟩ := hs.rebuilds_of_insertBefore hdone
    exact .rebuild rfl hrebuilds (by simp)
  | insertBeforeLanguage inner before d root =>
    obtain ⟨target, rfl, hdone⟩ := of_numbered h
    obtain ⟨htarget, compiled, pending, hrebuilds⟩ := effect_of_insertBeforeLanguage hs hdone
    refine .rebuild ?_ hrebuilds ?_
    · rw [inserts, htarget]
      rfl
    · intro id hid
      rw [Option.some.inj hid]
  | addAlias name known =>
    obtain ⟨root, rfl, hdone⟩ := of_numbered h
    obtain ⟨pending, hregisters⟩ := hs.registers_of_addAlias hdone
    exact .register rfl hregisters
  | load format name source =>
    obtain ⟨root, rfl, hdone⟩ := of_numbered h
    rw [Store.load] at hdone
    obtain ⟨d, -, hdefine⟩ := exists_of_bind hdone
    obtain ⟨pending, hregisters⟩ := hs.registers_of_define hdefine
    exact .register rfl hregisters
  | addInlined tagName name =>
    obtain ⟨rfl, hdone⟩ := of_silent h
    rw [Language.addInlined] at hdone
    cases hinsert : s.insertBeforeLanguage "markup" "tag" (Language.inlined tagName name) none with
    | error e => simp [hinsert, Functor.map, Except.map] at hdone
    | ok x =>
      simp only [hinsert, Functor.map, Except.map, Except.ok.injEq] at hdone
      rw [← hdone]
      obtain ⟨htarget, compiled, pending, hrebuilds⟩ := effect_of_insertBeforeLanguage hs hinsert
      refine .rebuild ?_ hrebuilds (by simp)
      rw [inserts, htarget]
      rfl

end Operation

namespace Store

variable {s t : Store}

theorem Registers.closed {name : String} {root : GrammarId} {pending : Array Grammar}
    (h : s.Registers name root pending t) (hs : s.Closed) : t.Closed := by
  obtain ⟨rfl, hroot, hwithin⟩ := h
  refine ⟨?_, ?_⟩
  · intro entry hentry
    rw [Array.size_append]
    rcases Table.mem_putEntry hentry with rfl | hold
    · exact hroot
    · exact Nat.lt_add_right _ (hs.languages entry hold)
  · intro g hg
    rw [Array.size_append]
    rcases Array.mem_append.1 hg with hold | hnew
    · exact (hs.slots g hold).mono (Nat.le_add_right _ _)
    · exact hwithin g hnew

theorem Rebuilds.closed {target : GrammarId} {before : String} {d : GrammarDef}
    {compiled : List (String × Rule)} {pending : Array Grammar}
    (h : s.Rebuilds target before d compiled pending t) (hs : s.Closed) : t.Closed := by
  obtain ⟨-, rfl, -, hcompiled, hwithin⟩ := h
  have hall : ∀ g ∈ s.slots ++ pending, g.Within (s.slots.size + pending.size) := by
    intro g hg
    rcases Array.mem_append.1 hg with hold | hnew
    · exact (hs.slots g hold).mono (Nat.le_add_right _ _)
    · exact hwithin g hnew
  obtain ⟨hnodup, hrules⟩ := hs.rules target
  refine ⟨?_, ?_⟩
  · intro entry hentry
    rw [Array.size_modify, Array.size_append]
    exact Nat.lt_add_right _ (hs.languages entry hentry)
  · intro g hg
    rw [Array.size_modify, Array.size_append]
    obtain ⟨i, hi, rfl⟩ := Array.getElem_of_mem hg
    rw [Array.getElem_modify]
    rw [Array.size_modify] at hi
    split
    · refine ⟨nodup_spliceBefore (Table.nodup_names_ofList compiled) hnodup, ?_,
        (hall _ (Array.getElem_mem hi)).rest⟩
      intro entry hentry
      rcases mem_spliceBefore hentry with hnew | hold
      · rcases Table.mem_putAll hnew with hnone | hnew
        · simp [Table.empty] at hnone
        · exact hcompiled entry hnew
      · exact (hrules entry hold).mono (Nat.le_add_right _ _)
    · exact hall _ (Array.getElem_mem hi)

/-! ### Stores that can be reached -/

theorem Closed.apply (hs : s.Closed) {op : Operation} {answer : Option GrammarId}
    (h : op.apply s = .ok (answer, t)) : t.Closed := by
  cases Operation.effect_of_apply hs h with
  | register _ hregisters => exact hregisters.closed hs
  | rebuild _ hrebuilds => exact hrebuilds.closed hs

/-- No slot goes away, and what an operation answers is the number of a slot. -/
theorem Closed.size_le (hs : s.Closed) {op : Operation} {answer : Option GrammarId}
    (h : op.apply s = .ok (answer, t)) :
    s.slots.size ≤ t.slots.size ∧ ∀ id, answer = some id → id.index < t.slots.size := by
  cases Operation.effect_of_apply hs h with
  | register _ hregisters =>
    obtain ⟨rfl, hroot, -⟩ := hregisters
    rw [Array.size_append]
    refine ⟨Nat.le_add_right _ _, ?_⟩
    intro id hid
    rw [← Option.some.inj hid]
    exact hroot
  | rebuild _ hrebuilds hanswer =>
    obtain ⟨-, rfl, htarget, -, -⟩ := hrebuilds
    rw [Array.size_modify, Array.size_append]
    refine ⟨Nat.le_add_right _ _, ?_⟩
    intro id hid
    rw [hanswer id hid]
    exact Nat.lt_add_right _ htarget

/-- An operation that fails leaves the store as it was. -/
theorem Closed.perform {w : Workbench} (hs : w.store.Closed) (op : Operation) :
    (op.perform w).2.store.Closed := by
  have hwhole := op.whole_perform w.store w.pending
  generalize hr : op.apply w.store = r at hwhole
  change Work.Whole w.store r (op.perform w) at hwhole
  generalize op.perform w = out at hwhole ⊢
  cases hwhole with
  | ok => exact hs.apply hr
  | error => exact hs

theorem closed_empty : empty.Closed :=
  ⟨List.forall_mem_nil _, by simp [empty]⟩

theorem Closed.define (hs : s.Closed) {name : String} {d : GrammarDef} {root : GrammarId}
    (h : s.define name d = .ok (root, t)) : t.Closed := by
  obtain ⟨pending, hregisters⟩ := hs.registers_of_define h
  exact hregisters.closed hs

theorem Closed.insertBefore (hs : s.Closed) {target : GrammarId} {before : String} {d : GrammarDef}
    (h : s.insertBefore target before d = .ok t) : t.Closed := by
  obtain ⟨compiled, pending, hrebuilds⟩ := hs.rebuilds_of_insertBefore h
  exact hrebuilds.closed hs

theorem Closed.addAlias (hs : s.Closed) {name known : String} {id : GrammarId}
    (h : s.addAlias name known = .ok (id, t)) : t.Closed := by
  obtain ⟨pending, hregisters⟩ := hs.registers_of_addAlias h
  exact hregisters.closed hs

theorem Closed.addAliases (hs : s.Closed) {language : String} {names : List String}
    (h : Language.addAliases language names s = .ok t) : t.Closed := by
  rw [Language.addAliases] at h
  induction names generalizing s with
  | nil =>
    cases h
    exact hs
  | cons name names ih =>
    rw [List.foldlM_cons] at h
    obtain ⟨mid, hmid, h⟩ := exists_of_bind h
    cases halias : s.addAlias name language with
    | error e => simp [halias, Functor.map, Except.map] at hmid
    | ok x =>
      rw [halias] at hmid
      cases hmid
      exact ih (hs.addAlias halias) h

theorem Closed.addInlined (hs : s.Closed) {tagName language : String}
    (h : Language.addInlined s tagName language = .ok t) : t.Closed := by
  have happly : (Operation.addInlined tagName language).apply s = .ok (none, t) := by
    rw [Operation.apply, h]
    rfl
  exact hs.apply happly

theorem closed_builtins (h : builtins = .ok s) : s.Closed := by
  rw [builtins, addBuiltins] at h
  obtain ⟨plain, hplain, h⟩ := exists_of_bind h
  obtain ⟨markup, hmarkup, h⟩ := exists_of_bind h
  obtain ⟨css, hcss, h⟩ := exists_of_bind h
  obtain ⟨clike, hclike, h⟩ := exists_of_bind h
  obtain ⟨script, hscript, hjson⟩ := exists_of_bind h
  have hplain' : plain.Closed := by
    obtain ⟨⟨_, mid⟩, hdefine, haliases⟩ := exists_of_bind hplain
    exact (closed_empty.define hdefine).addAliases haliases
  have hmarkup' : markup.Closed := by
    obtain ⟨⟨_, mid⟩, hdefine, haliases⟩ := exists_of_bind hmarkup
    exact (hplain'.define hdefine).addAliases haliases
  have hcss' : css.Closed := by
    obtain ⟨⟨_, mid⟩, hdefine, hinlined⟩ := exists_of_bind hcss
    exact (hmarkup'.define hdefine).addInlined hinlined
  have hclike' : clike.Closed := by
    rw [Language.addCFamily] at hclike
    cases hdefine : css.define "clike" Language.cFamily with
    | error e => simp [hdefine, Functor.map, Except.map] at hclike
    | ok x =>
      rw [hdefine] at hclike
      cases hclike
      exact hcss'.define hdefine
  have hscript' : script.Closed := by
    obtain ⟨⟨_, extended⟩, hextend, h⟩ := exists_of_bind hscript
    obtain ⟨literals, hliterals, h⟩ := exists_of_bind h
    obtain ⟨templates, htemplates, h⟩ := exists_of_bind h
    obtain ⟨⟨_, named⟩, halias, hinlined⟩ := exists_of_bind h
    obtain ⟨pending, hregisters⟩ := hclike'.registers_of_extendAt hextend
    have hextended := hregisters.closed hclike'
    exact (((hextended.insertBefore hliterals).insertBefore htemplates).addAlias halias).addInlined
      hinlined
  obtain ⟨⟨_, mid⟩, hdefine, haliases⟩ := exists_of_bind hjson
  exact (hscript'.define hdefine).addAliases haliases

/-- The stores that operations lead to, from the empty store or from that with the languages of the
    library. An operation may fail. -/
inductive Reachable : Store → Prop where
  | empty : Reachable .empty
  | builtins {s : Store} : builtins = .ok s → Reachable s
  | perform {w : Workbench} (op : Operation) :
      Reachable w.store → Reachable (op.perform w).2.store

theorem Reachable.closed (h : s.Reachable) : s.Closed := by
  induction h with
  | empty => exact closed_empty
  | builtins h => exact closed_builtins h
  | perform op _ ih => exact ih.perform op

/-! ### Looking slots up -/

open Tokenizer

/-- The rules that tokenizing applies, or `none` if one of the slots that are looked up is
    missing. -/
def effectiveRules? (s : Store) (id : GrammarId) : Option (Table Rule) :=
  match s.grammar? id with
  | none => none
  | some g =>
    match g.rest with
    | none => some g.rules
    | some rest => (s.grammar? rest).map fun other => g.rules.putAll other.rules.entries

/-- Tokenizing at most `depth` levels deep, where a missing slot leads to `missing`. -/
def nestedOr (missing : Except Fault (List Node)) (s : Store) :
    Nat → GrammarId → List Char → Except Fault (List Node)
  | 0, _, _ => .error .endless
  | depth + 1, id, text =>
    match s.effectiveRules? id with
    | none => missing
    | some rules => Level.run ⟨byteLength text, candidates rules, nestedOr missing s depth⟩ text

/-- The token tree that a grammar makes of a text, where a missing slot leads to `missing`. -/
def tokenizeOr (missing : Except Fault (List Node)) (s : Store) (text : String) (id : GrammarId) :
    Except Fault (List Node) :=
  s.nestedOr missing (depthFor s text.utf8ByteSize) id text.toList

variable {id : GrammarId}

theorem Closed.effectiveRules?_eq (hs : s.Closed) (h : id.index < s.slots.size) :
    s.effectiveRules? id = some (s.effectiveRules id) := by
  obtain ⟨g, hg⟩ := exists_grammar? h
  rw [effectiveRules?, effectiveRules, hg]
  dsimp only
  cases hrest : g.rest with
  | none => rfl
  | some rest =>
    obtain ⟨other, hother⟩ :=
      exists_grammar? ((hs.slots g (mem_of_grammar? hg)).rest rest hrest)
    dsimp only
    rw [hother, rules_of_grammar? hother]
    rfl

/-- The inner grammars of what tokenizing applies are grammars of the store. -/
theorem Closed.inside_lt (hs : s.Closed) {entry : String × Rule} {p : Pattern} {inner : GrammarId}
    (hentry : entry ∈ (s.effectiveRules id).entries) (hp : p ∈ entry.2)
    (hinside : p.inside = some inner) : inner.index < s.slots.size := by
  have hwithin : Rule.Within s.slots.size entry.2 := by
    rw [effectiveRules] at hentry
    split at hentry
    · simp [Table.empty] at hentry
    · rename_i g hg
      have hown := (hs.slots g (mem_of_grammar? hg)).rules
      split at hentry
      · exact hown entry hentry
      · rename_i rest _
        rcases Table.mem_putAll hentry with hentry | hentry
        · exact hown entry hentry
        · exact (hs.rules rest).2 entry hentry
  exact hwithin.2 p hp inner hinside

theorem Closed.insideOf_lt (hs : s.Closed) {kind : String} {inner : GrammarId}
    (h : s.insideOf id kind = some inner) : inner.index < s.slots.size := by
  obtain ⟨rule, hrule, hfind⟩ := Option.bind_eq_some_iff.1 h
  obtain ⟨p, hp, hinside⟩ := List.exists_of_findSome?_eq_some hfind
  exact ((hs.rules id).2 _ (Table.mem_of_get? hrule)).2 p hp inner hinside

/-- What a missing slot would lead to has no part in tokenizing. -/
theorem Closed.nestedOr_eq (hs : s.Closed) (missing : Except Fault (List Node)) (depth : Nat)
    {text : List Char} (h : id.index < s.slots.size) :
    s.nestedOr missing depth id text = nested s depth id text := by
  induction depth generalizing id text with
  | zero => rfl
  | succ depth ih =>
    rw [nestedOr, hs.effectiveRules?_eq h, nested_succ]
    refine Level.run_congr rfl rfl ?_
    intro c hc inner offset matched hinside _
    obtain ⟨entry, hentry, -, hp⟩ := mem_candidates.1 hc
    exact ih (hs.inside_lt hentry hp hinside)

/-- In every store that can be reached no number is without a slot, and what an operation on it
    answers is the number of a slot for good. So no slot is missing where a grammar, the inner
    grammar of a kind or the rules that tokenizing applies are looked up, and whatever a missing
    slot led to, tokenizing would come to the same. -/
theorem closed_of_reachable (h : s.Reachable) :
    s.Closed ∧
    (∀ (op : Operation) answer t, op.apply s = .ok (answer, t) →
      s.slots.size ≤ t.slots.size ∧ ∀ id, answer = some id → id.index < t.slots.size) ∧
    ∀ id : GrammarId, id.index < s.slots.size →
      (∃ g, s.grammar? id = some g) ∧
      (∀ kind inner, s.insideOf id kind = some inner → inner.index < s.slots.size) ∧
      s.effectiveRules? id = some (s.effectiveRules id) ∧
      ∀ missing text, s.tokenizeOr missing text id = s.tokenize text id := by
  have hs := h.closed
  refine ⟨hs, fun op answer t happly => hs.size_le happly, ?_⟩
  intro id hid
  refine ⟨exists_grammar? hid, fun kind inner => hs.insideOf_lt, hs.effectiveRules?_eq hid, ?_⟩
  intro missing text
  exact hs.nestedOr_eq missing _ hid

/-- A store with a language that refers to itself and an extension of it. -/
def extended : Store :=
  let defined := ((Operation.define "brackets" brackets).perform ⟨.empty, #[]⟩).2
  ((Operation.extend "lists" "brackets" (.mk [.mk "comma" [.plain ","]] none)).perform defined).2.store

theorem reachable_extended : extended.Reachable :=
  .perform _ (.perform _ .empty)

theorem size_extended : extended.slots.size = 2 := by
  decide +kernel

theorem closed_extended : extended.Reachable ∧ extended.Closed ∧
    ∀ missing text, extended.tokenizeOr missing text ⟨1⟩ = extended.tokenize text ⟨1⟩ := by
  have hlt : (⟨1⟩ : GrammarId).index < extended.slots.size := by
    rw [size_extended]
    decide
  obtain ⟨hclosed, -, hlookups⟩ := closed_of_reachable reachable_extended
  exact ⟨reachable_extended, hclosed, (hlookups ⟨1⟩ hlt).2.2.2⟩

end Store

end SyntaxHue
