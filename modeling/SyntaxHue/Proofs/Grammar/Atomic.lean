import SyntaxHue.Proofs.Grammar.InPlace

/-!
# Operations on stores are atomic

Work that is done in place leaves what it has done when it fails. The operations on stores fail
nowhere behind their first change of the store: what can fail is looked up or compiled beside it
before. So an operation that is carried out in place has done all of what it does to a store, or
nothing.
-/

namespace SyntaxHue

/-- What definitions are compiled against in a store while a name is being defined. -/
def Store.compilerWith (s : Store) (self : Option (String × GrammarId)) : Compiler where
  base := s.slots.size
  resolve name :=
    match self with
    | some (own, id) => if name = own then some id else s.get? name
    | none => s.get? name

namespace Work

variable {α β : Type} {s : Store}

theorem bind_apply (x : Work α) (f : α → Work β) (w : Workbench) :
    (x >>= f) w =
      match x w with
      | (.ok a, w) => f a w
      | (.error e, w) => (.error e, w) :=
  rfl

/-- Work that comes to `r`, with the grammars that it has compiled, has left the store alone. -/
inductive Beside (s : Store) :
    Except GrammarError (α × Array Grammar) → Except GrammarError α × Workbench → Prop where
  | ok {a : α} {pending : Array Grammar} : Beside s (.ok (a, pending)) (.ok a, ⟨s, pending⟩)
  | error {e : GrammarError} {pending : Array Grammar} :
      Beside s (.error e) (.error e, ⟨s, pending⟩)

variable {x : Work α} {f : α → Work β} {pending : Array Grammar}

theorem Beside.bind {r : Except GrammarError (α × Array Grammar)}
    {k : α × Array Grammar → Except GrammarError (β × Array Grammar)} {w : Workbench}
    (hx : Beside s r (x w)) (hf : ∀ a pending, Beside s (k (a, pending)) (f a ⟨s, pending⟩)) :
    Beside s (r >>= k) ((x >>= f) w) := by
  rw [bind_apply]
  generalize x w = out at hx ⊢
  cases hx with
  | ok => exact hf _ _
  | error => exact .error

theorem Beside.look {r : Except GrammarError α}
    {k : α → Except GrammarError (β × Array Grammar)} (hx : x ⟨s, pending⟩ = (r, ⟨s, pending⟩))
    (hf : ∀ a, Beside s (k a) (f a ⟨s, pending⟩)) :
    Beside s (r >>= k) ((x >>= f) ⟨s, pending⟩) := by
  rw [bind_apply, hx]
  cases r with
  | ok a => exact hf a
  | error e => exact .error

variable (self : Option (String × GrammarId))

theorem registered_eq (name : String) : language.registered name ⟨s, pending⟩ =
    (match s.get? name with
      | some id => .ok id
      | none => .error (.unknownLanguage name), ⟨s, pending⟩) :=
  rfl

theorem language_eq (name : String) : language self name ⟨s, pending⟩ =
    ((s.compilerWith self).language name, ⟨s, pending⟩) := by
  cases self with
  | none => exact registered_eq name
  | some entry =>
    obtain ⟨own, id⟩ := entry
    by_cases hname : name = own
    · simp only [language, Compiler.language, Store.compilerWith, if_pos hname]
      rfl
    · simp only [language, Compiler.language, Store.compilerWith, if_neg hname]
      exact registered_eq name

theorem rest_eq (next : Option String) : rest self next ⟨s, pending⟩ =
    ((s.compilerWith self).rest next, ⟨s, pending⟩) := by
  cases next with
  | none => rfl
  | some name =>
    rw [rest, bind_apply, language_eq, Compiler.rest]
    cases (s.compilerWith self).language name <;> rfl

theorem fill_eq (slot : Nat) (g : Grammar) : fill ⟨s.slots.size + slot⟩ g ⟨s, pending⟩ =
    (.ok (), ⟨s, pending.setIfInBounds slot g⟩) := by
  have hslot : s.slots.size + slot - s.slots.size = slot := Nat.add_sub_cancel_left ..
  simp only [fill, change, hslot]

mutual

/-- Compiling leaves the store alone, also when it fails. -/
theorem beside_grammar (d : GrammarDef) (pending : Array Grammar) :
    Beside s ((s.compilerWith self).grammar pending d) (grammar self d ⟨s, pending⟩) := by
  match d with
  | .mk defined next =>
    rw [Compiler.grammar, grammar]
    refine (beside_rules defined (pending.push default)).bind fun compiled after => ?_
    refine .look (rest_eq self next) fun next => ?_
    -- only a slot of the workbench is filled
    rw [bind_apply, fill_eq]
    exact .ok

theorem beside_rules (defined : List RuleDef) (pending : Array Grammar) :
    Beside s ((s.compilerWith self).rules pending defined) (rules self defined ⟨s, pending⟩) := by
  match defined with
  | [] => exact .ok
  | first :: more =>
    rw [Compiler.rules, rules]
    refine (beside_rule first pending).bind fun first pending => ?_
    refine (beside_rules more pending).bind fun others pending => ?_
    exact .ok

theorem beside_rule (d : RuleDef) (pending : Array Grammar) :
    Beside s ((s.compilerWith self).rule pending d) (rule self d ⟨s, pending⟩) := by
  match d with
  | .mk kind [] => exact .error
  | .mk kind (first :: more) =>
    rw [Compiler.rule, rule]
    · refine (beside_patterns kind (first :: more) pending).bind fun compiled pending => ?_
      exact .ok
    · simp
    · simp

theorem beside_patterns (kind : String) (defined : List PatternDef) (pending : Array Grammar) :
    Beside s ((s.compilerWith self).patterns pending kind defined)
      (patterns self kind defined ⟨s, pending⟩) := by
  match defined with
  | [] => exact .ok
  | first :: more =>
    rw [Compiler.patterns, patterns]
    refine (beside_pattern kind first pending).bind fun first pending => ?_
    refine (beside_patterns kind more pending).bind fun others pending => ?_
    exact .ok

theorem beside_pattern (kind : String) (d : PatternDef) (pending : Array Grammar) :
    Beside s ((s.compilerWith self).pattern pending kind d) (pattern self kind d ⟨s, pending⟩) := by
  match d with
  | .mk head inner =>
    rw [Compiler.pattern, pattern]
    refine .look rfl fun regex => ?_
    refine (beside_inside inner pending).bind fun inner pending => ?_
    exact .ok

theorem beside_inside (d : InsideDef) (pending : Array Grammar) :
    Beside s ((s.compilerWith self).inside pending d) (inside self d ⟨s, pending⟩) := by
  match d with
  | .none => exact .ok
  | .language name =>
    rw [Compiler.inside, inside]
    refine .look (language_eq self name) fun id => ?_
    exact .ok
  | .grammar definition =>
    rw [Compiler.inside, inside]
    refine (beside_grammar definition pending).bind fun id pending => ?_
    exact .ok

end

/-- Work on the store `s` comes to `r` in full or not at all: the store that it leaves is the new
    one, or `s` itself if it fails. -/
inductive Whole (s : Store) :
    Except GrammarError (α × Store) → Except GrammarError α × Workbench → Prop where
  | ok {a : α} {t : Store} {pending : Array Grammar} :
      Whole s (.ok (a, t)) (.ok a, ⟨t, pending⟩)
  | error {e : GrammarError} {pending : Array Grammar} :
      Whole s (.error e) (.error e, ⟨s, pending⟩)

theorem Whole.look {r : Except GrammarError α} {k : α → Except GrammarError (β × Store)}
    (hx : x ⟨s, pending⟩ = (r, ⟨s, pending⟩)) (hf : ∀ a, Whole s (k a) (f a ⟨s, pending⟩)) :
    Whole s (r >>= k) ((x >>= f) ⟨s, pending⟩) := by
  rw [bind_apply, hx]
  cases r with
  | ok a => exact hf a
  | error e => exact .error

/-- Work beside a store and work on the store after it. -/
theorem Beside.whole {r : Except GrammarError (α × Array Grammar)}
    {k : α × Array Grammar → Except GrammarError (β × Store)} {w : Workbench}
    (hx : Beside s r (x w)) (hf : ∀ a pending, Whole s (k (a, pending)) (f a ⟨s, pending⟩)) :
    Whole s (r >>= k) ((x >>= f) w) := by
  rw [bind_apply]
  generalize x w = out at hx ⊢
  cases hx with
  | ok => exact hf _ _
  | error => exact .error

/-- What is answered can be changed afterwards. -/
theorem Whole.map {r : Except GrammarError (α × Store)} {w : Workbench} (h : Whole s r (x w))
    (g : α → β) : Whole s (r.map fun y => (g y.1, y.2)) ((g <$> x) w) := by
  have hmap : (g <$> x) w = (x >>= fun a => pure (g a)) w := rfl
  rw [hmap, bind_apply]
  generalize x w = out at h ⊢
  cases h with
  | ok => exact .ok
  | error => exact .error

theorem whole_define (name : String) (d : GrammarDef) (pending : Array Grammar) :
    Whole s (s.define name d) (define name d ⟨s, pending⟩) := by
  obtain ⟨defined, next⟩ := d
  -- the slot of the language is the first on a cleared workbench
  let self : Option (String × GrammarId) := some (name, ⟨s.slots.size + 0⟩)
  rw [Store.define, Compiler.grammar]
  simp only [bind_assoc]
  refine (beside_rules self defined #[default]).whole fun compiled after => ?_
  refine .look (rest_eq self next) fun next => ?_
  -- from here on nothing fails, and only from here on the store is changed
  rw [bind_apply, fill_eq]
  exact .ok

theorem whole_addAlias (name known : String) (pending : Array Grammar) :
    Whole s (s.addAlias name known) (addAlias name known ⟨s, pending⟩) := by
  rw [addAlias, bind_apply, language, registered_eq, Store.addAlias]
  cases s.get? known with
  | none => exact .error
  | some id => exact .ok

/-- Whether a place is in the grammar of a slot. -/
def checkPlace (s : Store) (id : GrammarId) : Placement → Except GrammarError Unit
  | .atEnd => .ok ()
  | .before kind => if (s.rules id).contains kind then .ok () else .error (.unknownKind kind)

theorem placeIn_eq (id : GrammarId) (placement : Placement) :
    placeIn id placement ⟨s, pending⟩ = (checkPlace s id placement, ⟨s, pending⟩) := by
  cases placement <;> rfl

/-- The rest of an extension: its own, or else that of the base. -/
def restFrom (c : Compiler) (base : Option GrammarId) :
    Option String → Except GrammarError (Option GrammarId)
  | some next => some <$> c.language next
  | none => .ok base

theorem restOver_eq (base : GrammarId) (next : Option String) :
    restOver self base next ⟨s, pending⟩ =
      (restFrom (s.compilerWith self) ((s.grammar? base).bind Grammar.rest) next,
        ⟨s, pending⟩) := by
  cases next with
  | none => rfl
  | some name =>
    rw [restOver, bind_apply, language_eq, restFrom]
    cases (s.compilerWith self).language name <;> rfl

/-- The store with an extension of the grammar in slot `base`. -/
def override (s : Store) (name : String) (base : GrammarId) (overrides : GrammarDef)
    (placement : Placement) : Except GrammarError (GrammarId × Store) := do
  let (compiled, pending) ← (s.compilerFor name).rules #[default] overrides.rules
  let next ← restFrom (s.compilerFor name) ((s.grammar? base).bind Grammar.rest) overrides.rest
  let merged : Grammar :=
    ⟨Store.mergeRules (s.rules base) (.ofList compiled) placement, next⟩
  return (⟨s.slots.size⟩,
    ⟨s.slots ++ pending.setIfInBounds 0 merged, s.languages.put name ⟨s.slots.size⟩⟩)

theorem extendAt_eq (name base : String) (overrides : GrammarDef) (placement : Placement) :
    s.extendAt name base overrides placement =
      match s.get? base with
      | none => .error (.unknownLanguage base)
      | some id => checkPlace s id placement >>= fun _ => override s name id overrides placement := by
  obtain ⟨defined, next⟩ := overrides
  rw [Store.extendAt]
  cases s.get? base with
  | none => rfl
  | some id =>
    cases placement with
    | atEnd => cases next <;> rfl
    | before kind =>
      dsimp only [checkPlace]
      cases (s.rules id).contains kind <;> cases next <;> rfl

theorem whole_override (name : String) (base : GrammarId) (overrides : GrammarDef)
    (placement : Placement) (pending : Array Grammar) :
    Whole s (override s name base overrides placement)
      ((do
        let baseRules ← Work.look fun s => .ok (s.rules base)
        clear
        let root ← reserve
        let compiled ← rules (some (name, root)) overrides.rules
        let next ← restOver (some (name, root)) base overrides.rest
        fill root ⟨Store.mergeRules baseRules (.ofList compiled) placement, next⟩
        commit
        enter name root
        return root : Work GrammarId) ⟨s, pending⟩) := by
  let self : Option (String × GrammarId) := some (name, ⟨s.slots.size + 0⟩)
  refine (beside_rules self overrides.rules #[default]).whole fun compiled after => ?_
  refine .look (restOver_eq self base overrides.rest) fun next => ?_
  rw [bind_apply, fill_eq]
  exact .ok

theorem whole_extendAt (name base : String) (overrides : GrammarDef) (placement : Placement)
    (pending : Array Grammar) :
    Whole s (s.extendAt name base overrides placement)
      (extendAt name base overrides placement ⟨s, pending⟩) := by
  rw [extendAt, bind_apply, language, registered_eq, extendAt_eq]
  cases s.get? base with
  | none => exact .error
  | some id =>
    refine .look (placeIn_eq id placement) fun _ => ?_
    exact whole_override name id overrides placement pending

theorem whole_insertBefore (target : GrammarId) (before : String) (d : GrammarDef)
    (pending : Array Grammar) :
    Whole s ((s.insertBefore target before d).map fun t => ((), t))
      (insertBefore target before d ⟨s, pending⟩) := by
  have hplace : (s.insertBefore target before d).map (fun t => ((), t)) =
      checkPlace s target (.before before) >>= fun _ =>
        s.compiler.rules #[] d.rules >>= fun x => .ok ((), { s with
          slots := (s.slots ++ x.2).modify target.index fun g =>
            { g with rules := Store.spliceBefore before (.ofList x.1) (s.rules target) } }) := by
    rw [Store.insertBefore, checkPlace]
    dsimp only
    cases (s.rules target).contains before with
    | false => rfl
    | true => cases s.compiler.rules #[] d.rules <;> rfl
  rw [hplace]
  refine .look rfl fun _ => ?_
  refine (beside_rules none d.rules #[]).whole fun compiled after => ?_
  exact .ok

theorem whole_insertBeforeLanguage (inner before : String) (d : GrammarDef)
    (root : Option String) (pending : Array Grammar) :
    Whole s (s.insertBeforeLanguage inner before d root)
      (insertBeforeLanguage inner before d root ⟨s, pending⟩) := by
  rw [Store.insertBeforeLanguage]
  refine .look rfl fun target => ?_
  have hinsert := whole_insertBefore (s := s) target before d pending
  rw [bind_apply]
  generalize insertBefore target before d ⟨s, pending⟩ = out at hinsert ⊢
  cases h : s.insertBefore target before d with
  | error e =>
    rw [h] at hinsert
    cases hinsert
    exact .error
  | ok t =>
    rw [h] at hinsert
    cases hinsert
    exact .ok

theorem whole_load (format : DataFormat) (name source : String) (pending : Array Grammar) :
    Whole s (s.load format name source) (load format name source ⟨s, pending⟩) := by
  rw [Store.load]
  refine .look rfl fun d => ?_
  exact whole_define name d pending

theorem whole_addInlined (tagName name : String) (pending : Array Grammar) :
    Whole s ((Language.addInlined s tagName name).map fun t => ((), t))
      (addInlined tagName name ⟨s, pending⟩) := by
  have hsilent : (Language.addInlined s tagName name).map (fun t => ((), t)) =
      (s.insertBeforeLanguage "markup" "tag" (Language.inlined tagName name) none).map
        fun y => ((), y.2) := by
    rw [Language.addInlined]
    cases s.insertBeforeLanguage "markup" "tag" (Language.inlined tagName name) none <;> rfl
  rw [hsilent]
  exact (whole_insertBeforeLanguage "markup" "tag" (Language.inlined tagName name) none
    pending).map fun _ => ()

end Work

namespace Operation

open Work

theorem silent_eq (r : Except GrammarError Store) :
    silent r = (r.map fun t => ((), t)).map fun y => (none, y.2) := by
  cases r <;> rfl

/-- What an operation comes to in place is what it makes of the store. -/
theorem whole_perform (op : Operation) (s : Store) (pending : Array Grammar) :
    Whole s (op.apply s) (op.perform ⟨s, pending⟩) := by
  cases op with
  | define name d => exact (whole_define name d pending).map some
  | extend name base overrides => exact (whole_extendAt name base overrides .atEnd pending).map some
  | extendAt name base overrides placement =>
    exact (whole_extendAt name base overrides placement pending).map some
  | insertBefore target before d =>
    rw [apply, silent_eq]
    exact (whole_insertBefore target before d pending).map fun _ => none
  | insertBeforeLanguage inner before d root =>
    exact (whole_insertBeforeLanguage inner before d root pending).map some
  | addAlias name known => exact (whole_addAlias name known pending).map some
  | load format name source => exact (whole_load format name source pending).map some
  | addInlined tagName name =>
    rw [apply, silent_eq]
    exact (whole_addInlined tagName name pending).map fun _ => none

/-- An operation that fails in place has not changed the store, whichever it is and wherever it
    fails, and one that succeeds has made the store that it says it makes. -/
theorem perform_atomic (op : Operation) (w : Workbench) :
    match op.perform w with
    | (.error e, after) => op.apply w.store = .error e ∧ after.store = w.store
    | (.ok answer, after) => op.apply w.store = .ok (answer, after.store) := by
  have h := whole_perform op w.store w.pending
  generalize op.perform w = out at h ⊢
  generalize op.apply w.store = r at h ⊢
  cases h with
  | ok => rfl
  | error => exact ⟨rfl, rfl⟩

-- The workbench shows how far a definition came: its own slot and that of an inner grammar.
example :
    let inner := GrammarDef.mk [] none
    let rules := [.mk "string" [.mk ⟨"s", false, false, []⟩ (.grammar inner)], .mk "number" []]
    let (answer, after) := (define "language" (.mk rules none)).perform ⟨.empty, #[]⟩
    !answer.isOk ∧ after.pending.size = 2 ∧ after.store.slots.size = 0 := by
  decide +kernel

end Operation

end SyntaxHue
