import SyntaxHue.Hooks

/-!
# Callbacks that note their calls

A registry is made by adding callbacks under names. To see in which order the callbacks are
called, each of them is replaced by one that does the same and notes that it was called, and on
what. Nothing else changes: a run of the callbacks under a name gives the same environment and the
same state, and the notes grow by the calls of just these callbacks, the first added first.
-/

namespace SyntaxHue

/-- A call of a callback. -/
structure Call (ε : Type) where
  /-- How many callbacks were added before this one. -/
  number : Nat
  /-- The environment at the call. -/
  seen : ε

variable {ε σ τ : Type}

namespace Hook

/-- The callback on a state with a part that it leaves alone. -/
def framed (hook : Hook ε σ) : Hook ε (σ × τ) :=
  fun env (st, frame) => ((hook env st).1, (hook env st).2, frame)

/-- The callback, noting its calls. -/
def noting (number : Nat) (hook : Hook ε σ) : Hook ε (σ × List (Call ε)) :=
  fun env (st, notes) => ((hook env st).1, (hook env st).2, notes ++ [⟨number, env⟩])

end Hook

namespace HookRegistry

/-- The registry to which callbacks have been added, in order. -/
def ofList (hooks : List (String × Hook ε σ)) : HookRegistry ε σ :=
  hooks.foldl (fun r hook => r.add hook.1 hook.2) .empty

/-- The callbacks that were added under a name. -/
def under (name : String) (hooks : List (String × Hook ε σ)) : List (Hook ε σ) :=
  (hooks.filter (·.1 = name)).map Prod.snd

theorem under_cons (name : String) (hook : String × Hook ε σ) (hooks : List (String × Hook ε σ)) :
    under name (hook :: hooks) =
      if hook.1 = name then hook.2 :: under name hooks else under name hooks := by
  by_cases h : hook.1 = name <;> simp [under, h]

theorem get_add (r : HookRegistry ε σ) (key name : String) (hook : Hook ε σ) :
    (r.add key hook).get name = if key = name then r.get name ++ [hook] else r.get name := by
  rw [get, add, Table.get?_put]
  split
  · rename_i hkey
    rw [Option.getD_some, hkey]
  · rfl

theorem get_foldl_add (name : String) (hooks : List (String × Hook ε σ)) (r : HookRegistry ε σ) :
    (hooks.foldl (fun r hook => r.add hook.1 hook.2) r).get name =
      r.get name ++ under name hooks := by
  induction hooks generalizing r with
  | nil => exact (List.append_nil _).symm
  | cons hook hooks ih =>
    rw [List.foldl_cons, ih, get_add, under_cons]
    by_cases h : hook.1 = name
    · rw [if_pos h, if_pos h, List.append_assoc, List.singleton_append]
    · rw [if_neg h, if_neg h]

/-- The callbacks under a name are in the order in which they were added. -/
theorem get_ofList (hooks : List (String × Hook ε σ)) (name : String) :
    (ofList hooks).get name = under name hooks :=
  get_foldl_add name hooks .empty

theorem run_ofList (hooks : List (String × Hook ε σ)) (name : String) (env : ε) (st : σ) :
    (ofList hooks).run name env st = runAll (under name hooks) env st := by
  rw [run, get_ofList]

/-- What the callbacks under a name make of an environment and a state. Each goes on with what the
    one before it has left, and those under other names do nothing. -/
def outcome (hooks : List (String × Hook ε σ)) (name : String) (env : ε) (st : σ) : ε × σ :=
  (hooks.filter (·.1 = name)).foldl (fun left hook => hook.2 left.1 left.2) (env, st)

theorem run_ofList_eq_outcome (hooks : List (String × Hook ε σ)) (name : String) (env : ε)
    (st : σ) : (ofList hooks).run name env st = outcome hooks name env st := by
  rw [run_ofList, runAll, under, List.foldl_map, outcome]

theorem runAll_cons (hook : Hook ε σ) (hooks : List (Hook ε σ)) (env : ε) (st : σ) :
    runAll (hook :: hooks) env st = runAll hooks (hook env st).1 (hook env st).2 :=
  rfl

/-! ### A part of the state that is left alone -/

/-- Callbacks on a state with a part that they leave alone. -/
def framed (hooks : List (String × Hook ε σ)) : List (String × Hook ε (σ × τ)) :=
  hooks.map fun hook => (hook.1, hook.2.framed)

theorem run_framed (hooks : List (String × Hook ε σ)) (name : String) (env : ε) (st : σ)
    (frame : τ) :
    (ofList (framed hooks)).run name env (st, frame) =
      ((outcome hooks name env st).1, (outcome hooks name env st).2, frame) := by
  rw [← run_ofList_eq_outcome, run_ofList, run_ofList]
  induction hooks generalizing env st with
  | nil => rfl
  | cons hook hooks ih =>
    rw [framed, List.map_cons, under_cons, under_cons]
    by_cases h : hook.1 = name
    · rw [if_pos h, if_pos h, runAll_cons, runAll_cons]
      exact ih (hook.2 env st).1 (hook.2 env st).2
    · rw [if_neg h, if_neg h]
      exact ih env st

/-! ### Notes -/

/-- Callbacks that note their calls, the first of which has the given number. -/
def notingFrom : Nat → List (String × Hook ε σ) → List (String × Hook ε (σ × List (Call ε)))
  | _, [] => []
  | number, hook :: hooks => (hook.1, hook.2.noting number) :: notingFrom (number + 1) hooks

/-- Callbacks that note their calls. -/
def noting (hooks : List (String × Hook ε σ)) : List (String × Hook ε (σ × List (Call ε))) :=
  notingFrom 0 hooks

/-- The calls of the callbacks under a name: the first added is called first, and each sees what
    the one before it has left. -/
def callsFrom (name : String) : Nat → List (String × Hook ε σ) → ε → σ → List (Call ε)
  | _, [], _, _ => []
  | number, hook :: hooks, env, st =>
    if hook.1 = name then
      ⟨number, env⟩ :: callsFrom name (number + 1) hooks (hook.2 env st).1 (hook.2 env st).2
    else callsFrom name (number + 1) hooks env st

/-- The calls of the callbacks under a name. -/
def calls (hooks : List (String × Hook ε σ)) (name : String) (env : ε) (st : σ) :
    List (Call ε) :=
  callsFrom name 0 hooks env st

theorem runAll_notingFrom (name : String) (number : Nat) (hooks : List (String × Hook ε σ))
    (env : ε) (st : σ) (notes : List (Call ε)) :
    runAll (under name (notingFrom number hooks)) env (st, notes) =
      ((runAll (under name hooks) env st).1, (runAll (under name hooks) env st).2,
        notes ++ callsFrom name number hooks env st) := by
  induction hooks generalizing number env st notes with
  | nil => rw [callsFrom, List.append_nil]; rfl
  | cons hook hooks ih =>
    rw [notingFrom, under_cons, under_cons, callsFrom]
    by_cases h : hook.1 = name
    · rw [if_pos h, if_pos h, if_pos h, runAll_cons, runAll_cons, List.append_cons]
      exact ih (number + 1) (hook.2 env st).1 (hook.2 env st).2 _
    · rw [if_neg h, if_neg h, if_neg h]
      exact ih (number + 1) env st notes

/-- Noting changes nothing but the notes, which grow by the calls of the callbacks that are run. -/
theorem run_noting (hooks : List (String × Hook ε σ)) (name : String) (env : ε) (st : σ)
    (notes : List (Call ε)) :
    (ofList (noting hooks)).run name env (st, notes) =
      ((outcome hooks name env st).1, (outcome hooks name env st).2,
        notes ++ calls hooks name env st) := by
  rw [← run_ofList_eq_outcome, run_ofList, run_ofList]
  exact runAll_notingFrom name 0 hooks env st notes

end HookRegistry

end SyntaxHue
