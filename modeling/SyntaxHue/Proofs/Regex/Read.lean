import SyntaxHue.Regex.Search

/-!
# What patterns are read as

A pattern is read item by item. How much fuel an item takes depends on its form alone, and with more
fuel it is read alike; so what a longer pattern is read as follows from what its items are read as,
and the fuel is counted once, for the whole of it. This is done here for characters that stand for
themselves, groups, look-ahead and the flag for any case.
-/

namespace SyntaxHue

namespace PatternReader

/-- The reader in front of `cs`, with no flag on but the one for any case if `fold`. -/
def facing (s : PatternReader) (fold : Bool) (cs : List Char) : PatternReader :=
  { s with rest := cs, flags := { anyCase := fold } }

/-- With `need` or more fuel, reading from `s` on leads to `a` and to `t`. -/
def Yields {α : Type} (need : Nat) (read : Nat → ReadM α) (s : PatternReader) (a : α)
    (t : PatternReader) : Prop :=
  ∀ fuel, need ≤ fuel → read fuel s = .ok (a, t)

theorem goto_facing (s : PatternReader) (fold : Bool) (cs rest : List Char) :
    goto rest (s.facing fold cs) = .ok ((), s.facing fold rest) :=
  rfl

theorem run_bind {α β : Type} {x : ReadM α} {f : α → ReadM β} {a : α} {s t : PatternReader}
    (h : x s = .ok (a, t)) : (x >>= f) s = f a t := by
  simp only [bind, StateT.bind, Except.bind, h]

variable {s t u v : PatternReader} {fold : Bool} {c : Char} {cs rest : List Char} {e e' : Expr}
  {es : List Expr} {m n depth : Nat}

theorem Yields.of_succ {α : Type} {read : Nat → ReadM α} {a : α}
    (h : ∀ fuel, n ≤ fuel → read (fuel + 1) s = .ok (a, t)) : Yields (n + 1) read s a t := by
  intro fuel hfuel
  obtain ⟨fuel, rfl⟩ := Nat.exists_eq_add_one.2 (Nat.lt_of_lt_of_le n.succ_pos hfuel)
  exact h fuel (Nat.le_of_succ_le_succ hfuel)

theorem Yields.mono {α : Type} {read : Nat → ReadM α} {a : α} (h : Yields m read s a t)
    (hle : m ≤ n) : Yields n read s a t :=
  fun fuel hfuel => h fuel (Nat.le_trans hle hfuel)

/-! ### Characters -/

/-- The characters that mean something else than themselves where an item may stand. -/
def special : List Char :=
  ['\\', '.', '+', '*', '?', '(', ')', '|', '[', '{', '^', '$', '#']

theorem notMem_special_of_isAlpha (h : c.isAlpha = true) : c ∉ special := by
  intro hmem
  have hnone : special.all (fun d => !d.isAlpha) = true := by decide
  have hnot := List.all_eq_true.1 hnone c hmem
  rw [h] at hnot
  contradiction

theorem skipSpace_char (h : c ∉ special) (fuel : Nat) :
    skipSpace false fuel (c :: cs) = .ok (c :: cs) := by
  cases fuel with
  | zero => rfl
  | succ fuel =>
    rw [skipSpace.eq_def]
    dsimp only
    split
    · rename_i heq
      cases heq
      exact absurd h (by decide)
    · rfl
    · rfl
    · contradiction

theorem skip_eq (h : skipSpace s.flags.spaced (s.rest.length + 1) s.rest = .ok rest) :
    skip s = .ok (rest, { s with rest }) := by
  have hlift : (liftM (skipSpace s.flags.spaced (s.rest.length + 1) s.rest) :
      ReadM (List Char)) s = .ok (rest, s) := by
    rw [h]
    rfl
  unfold skip
  rw [run_bind rfl, run_bind hlift]
  rfl

theorem skip_char (h : c ∉ special) :
    skip (s.facing fold (c :: cs)) = .ok (c :: cs, s.facing fold (c :: cs)) :=
  skip_eq (skipSpace_char h _)

/-- Nothing is repeated in front of a character that stands for itself. -/
theorem repetition_char (h : c ∉ special) :
    repetition e (s.facing fold (c :: cs)) = .ok (e, s.facing fold (c :: cs)) := by
  unfold repetition
  rw [run_bind (skip_char h), run_bind rfl]
  dsimp only
  split
  case h_5 => rfl
  all_goals
    rename_i heq
    cases heq
    exact absurd h (by decide)

theorem yields_char (h : c ∉ special) :
    Yields 1 (atom · depth) (s.facing fold (c :: cs)) (.one (.foldIf fold (.single c)))
      (s.facing fold cs) := by
  refine .of_succ fun fuel _ => ?_
  rw [atom.eq_def]
  dsimp only
  rw [run_bind (skip_char h), run_bind rfl]
  generalize hcons : c :: cs = text
  split
  case h_1 => contradiction
  case h_8 =>
    cases hcons
    have hplain : ¬ (c = '+' || c = '*' || c = '?' || c = '|' || c = ')') = true := by
      simp [special] at h
      simp [h]
    rw [if_neg hplain]
    rfl
  all_goals
    cases hcons
    exact absurd h (by decide)

/-! ### Items -/

/-- An item, and then more of them. -/
theorem Yields.cons (hs : s.rest ≠ []) (hatom : Yields m (atom · depth) s e t)
    (hrepeat : repetition e t = .ok (e', u)) (he : isEmpty e' = false)
    (hes : Yields n (items · depth) u es v) :
    Yields (max m n + 1) (items · depth) s (e' :: es) v := by
  refine .of_succ fun fuel hfuel => ?_
  have hlength : ¬ s.rest.length = 0 := by
    rwa [List.length_eq_zero_iff]
  rw [items.eq_def]
  dsimp only
  rw [run_bind rfl]
  rw [if_neg hlength, run_bind (hatom fuel (by omega)), run_bind hrepeat, he,
    if_neg Bool.false_ne_true, run_bind (hes fuel (by omega))]
  rfl

/-- An item that stands for nothing, and then others. -/
theorem Yields.pass (hatom : Yields m (atom · depth) s .empty t)
    (hrepeat : repetition .empty t = .ok (.empty, u)) (hlt : u.rest.length < s.rest.length)
    (hes : Yields n (items · depth) u es v) : Yields (max m n + 1) (items · depth) s es v := by
  refine .of_succ fun fuel hfuel => ?_
  rw [items.eq_def]
  dsimp only
  rw [run_bind rfl]
  rw [if_neg (by omega), run_bind (hatom fuel (by omega)), run_bind hrepeat]
  have hempty : isEmpty .empty = true := rfl
  rw [if_pos hempty, run_bind rfl, if_neg (by omega)]
  exact hes fuel (by omega)

theorem yields_nil : Yields 1 (items · depth) (s.facing fold []) [] (s.facing fold []) :=
  .of_succ fun _ _ => rfl

/-- Items end in front of a closing parenthesis. -/
theorem yields_close : Yields 2 (items · depth) (s.facing fold (')' :: cs)) []
    (s.facing fold (')' :: cs)) := by
  refine .of_succ fun fuel hfuel => ?_
  obtain ⟨fuel, rfl⟩ := Nat.exists_eq_add_one.2 hfuel
  rw [items.eq_def]
  dsimp only
  rw [run_bind rfl]
  have hlength : ¬ (s.facing fold (')' :: cs)).rest.length = 0 := Nat.succ_ne_zero _
  have hatom : atom (fuel + 1) depth (s.facing fold (')' :: cs)) =
      .ok (.empty, s.facing fold (')' :: cs)) := rfl
  have hrepeat : repetition .empty (s.facing fold (')' :: cs)) =
      .ok (.empty, s.facing fold (')' :: cs)) := rfl
  have hempty : isEmpty .empty = true := rfl
  rw [if_neg hlength, run_bind hatom, run_bind hrepeat, if_pos hempty, run_bind rfl, if_pos rfl]
  rfl

/-- Characters that stand for themselves, in front of such a character. -/
theorem Yields.chars {word : List Char} (hword : ∀ c ∈ word, c ∉ special)
    (hrest : ∀ e, repetition e (s.facing fold rest) = .ok (e, s.facing fold rest))
    (h : Yields n (items · depth) (s.facing fold rest) es t) :
    Yields (n + word.length + 1) (items · depth) (s.facing fold (word ++ rest))
      (word.map (fun c => .one (.foldIf fold (.single c))) ++ es) t := by
  induction word with
  | nil => exact h.mono (by omega)
  | cons c word ih =>
    obtain ⟨hc, hword⟩ := List.forall_mem_cons.1 hword
    have hrepeat : ∀ e, repetition e (s.facing fold (word ++ rest)) =
        .ok (e, s.facing fold (word ++ rest)) := by
      intro e
      cases word with
      | nil => exact hrest e
      | cons d word => exact repetition_char (hword d List.mem_cons_self)
    have hcons := Yields.cons (List.cons_ne_nil c _) (yields_char hc) (hrepeat _) rfl (ih hword)
    refine hcons.mono ?_
    rw [List.length_cons]
    omega

/-! ### Groups -/

/-- What is read between two parentheses, or in a whole pattern. -/
theorem Yields.body (h : Yields n (items · depth) s es t) (hes : 2 ≤ es.length)
    (hother : ∀ fuel, otherAlternatives (fuel + 1) depth t = .ok ([], t))
    (hnumbered : t.numbered = false) : Yields (n + 2) (alternatives · depth) s (.seq es) t := by
  refine .of_succ fun fuel hfuel => ?_
  obtain ⟨fuel, rfl⟩ := Nat.exists_eq_add_one.2 (Nat.lt_of_lt_of_le n.succ_pos hfuel)
  have hbranch : branch (fuel + 1) depth s = .ok (.seq es, t) := by
    rw [branch.eq_def]
    dsimp only
    rw [run_bind (h fuel (by omega))]
    match es, hes with
    | _ :: _ :: _, _ => rfl
  rw [alternatives.eq_def]
  dsimp only
  rw [run_bind hbranch, run_bind (hother fuel)]
  dsimp only
  rw [run_bind rfl, hnumbered]
  rfl

theorem Yields.paren (hcs : ∀ more, cs ≠ '?' :: '#' :: more) (hdepth : depth + 1 < maxDepth)
    (h : Yields n (group · (depth + 1)) (s.facing fold cs) e t) :
    Yields (n + 1) (atom · depth) (s.facing fold ('(' :: cs)) e t := by
  refine .of_succ fun fuel hfuel => ?_
  have hskip : skip (s.facing fold ('(' :: cs)) = .ok ('(' :: cs, s.facing fold ('(' :: cs)) := by
    refine skip_eq ?_
    change skipSpace false (cs.length + 2) ('(' :: cs) = .ok ('(' :: cs)
    rw [skipSpace.eq_def]
    dsimp only
    split
    · rename_i heq
      cases heq
      exact absurd rfl (hcs _)
    · rfl
    · rfl
    · contradiction
  rw [atom.eq_def]
  dsimp only
  rw [run_bind hskip, run_bind rfl]
  change (goto cs >>= fun _ => if depth + 1 ≥ maxDepth then _ else group fuel (depth + 1))
    (s.facing fold ('(' :: cs)) = .ok (e, t)
  rw [run_bind (goto_facing ..), if_neg (Nat.not_le.2 hdepth)]
  exact h fuel hfuel

theorem Yields.captured (hc : c ∉ special)
    (h : Yields n (alternatives · depth)
      ({ s with groups := s.groups + 1 }.facing fold (c :: cs)) e (t.facing fold (')' :: rest))) :
    Yields (n + 1) (group · depth) (s.facing fold (c :: cs)) (.group (s.groups + 1) e)
      ({ t with extents := (s.groups + 1, e.extent) :: t.extents }.facing fold rest) := by
  refine .of_succ fun fuel hfuel => ?_
  rw [group.eq_def]
  dsimp only
  rw [run_bind (skip_char hc)]
  generalize hcons : c :: cs = text at h
  split
  case h_12 =>
    have hopen : openGroup none (s.facing fold text) =
        .ok (s.groups + 1, { s with groups := s.groups + 1 }.facing fold text) := rfl
    rw [run_bind hopen, run_bind (h fuel hfuel)]
    rfl
  all_goals
    cases hcons
    exact absurd hc (by decide)

theorem Yields.ahead
    (h : Yields n (alternatives · depth) (s.facing fold cs) e (t.facing fold (')' :: rest))) :
    Yields (n + 2) (group · depth) (s.facing fold ('?' :: '=' :: cs))
      (.look .ahead true e) (t.facing fold rest) := by
  refine .of_succ fun fuel hfuel => ?_
  obtain ⟨fuel, rfl⟩ := Nat.exists_eq_add_one.2 (Nat.lt_of_lt_of_le n.succ_pos hfuel)
  have hlook : group (fuel + 2) depth (s.facing fold ('?' :: '=' :: cs)) =
      look (fuel + 1) depth .ahead true cs (s.facing fold ('?' :: '=' :: cs)) := rfl
  rw [hlook, look.eq_def]
  dsimp only
  rw [run_bind (goto_facing ..), run_bind (h fuel (by omega))]
  rfl

theorem readFlags_anyCase (fuel : Nat) :
    readFlags (cs.length + 2) (fuel + 2) false (s.facing fold ('i' :: ')' :: cs)) =
      .ok (')', s.facing true cs) := by
  have hfirst : readFlags (cs.length + 2) (fuel + 2) false (s.facing fold ('i' :: ')' :: cs)) =
      readFlags (cs.length + 2) (fuel + 1) false (s.facing true (')' :: cs)) := rfl
  have hpassed : cs.length + 2 - (cs.length + 1) = 1 := by omega
  have hskip : skip (s.facing true (')' :: cs)) = .ok (')' :: cs, s.facing true (')' :: cs)) := rfl
  rw [hfirst, readFlags.eq_def]
  dsimp only
  rw [run_bind hskip]
  rw [List.length_cons, hpassed]
  rfl

theorem yields_anyCase : Yields 1 (group · depth) (s.facing fold ('?' :: 'i' :: ')' :: cs)) .empty
    (s.facing true cs) := by
  refine .of_succ fun fuel hfuel => ?_
  have hskip : skip (s.facing fold ('?' :: 'i' :: ')' :: cs)) =
      .ok ('?' :: 'i' :: ')' :: cs, s.facing fold ('?' :: 'i' :: ')' :: cs)) := rfl
  rw [group.eq_def]
  dsimp only
  rw [run_bind hskip]
  change (goto ('i' :: ')' :: cs) >>= fun _ => get >>= fun _ =>
    readFlags (cs.length + 2) (cs.length + 3) false >>= _) _ = _
  rw [run_bind (goto_facing ..), run_bind rfl, run_bind (readFlags_anyCase _)]
  rfl

end PatternReader

end SyntaxHue
