import Mathlib.Data.Finset.Card
import Mathlib.Tactic.Linarith
import Std.Data.TreeSet.Lemmas
import SyntaxHue.Proofs.Regex.Match

/-!
# The search for a regular program is exact

`Regular.run` takes no choice twice at one place, since the second time it would fail again. That
this misses nothing rests on the labels: a label stands for one choice with all that follows it, so
a choice that was taken at a place has left both its branches to the run. A run that finds nothing
has therefore seen to the end whatever can be reached, and a search finds the leftmost place where
the program has a match.
-/

namespace SyntaxHue

/-- The places that two neighbouring places do not leave out. -/
theorem Cursor.eq_or_le_of_le {here there place : Cursor} {x : Char}
    (hnext : here.next? = some (x, there)) (htext : place.text = here.text)
    (hle : here.offset ≤ place.offset) : place = here ∨ there.offset ≤ place.offset := by
  obtain ⟨u, hafter, -, hoffset⟩ := Cursor.exists_between htext.symm hle
  obtain ⟨-, hcons, hthere⟩ := Cursor.next?_eq_some hnext
  cases u with
  | nil => exact .inl (Cursor.eq_of_offset htext (by simpa using hoffset))
  | cons y u =>
    rw [hcons, List.cons_append, List.cons.injEq] at hafter
    obtain ⟨rfl, -⟩ := hafter
    rw [byteLength_cons] at hoffset
    exact .inr (by omega)

/-- What an exact search from `here` on finds, where from a place `q` on an outcome `o` is open
    if `ends q o`: an outcome from the first place that has one. -/
inductive Searched (ends : Cursor → Regular.Outcome → Prop) (here : Cursor) :
    Option Regular.Outcome → Prop where
  | none : (∀ q o, q.text = here.text → here.offset ≤ q.offset → ¬ ends q o) →
      Searched ends here none
  | some {place : Cursor} {o : Regular.Outcome} : place.text = here.text →
      here.offset ≤ place.offset → ends place o →
      (∀ q o', q.text = here.text → here.offset ≤ q.offset → ends q o' →
        place.offset ≤ q.offset) → Searched ends here (some o)

namespace Searched

variable {ends : Cursor → Regular.Outcome → Prop} {here there : Cursor} {x : Char}
  {r : Option Regular.Outcome}

theorem at_here {o : Regular.Outcome} (h : ends here o) : Searched ends here (Option.some o) :=
  some rfl (Nat.le_refl _) h fun _ _ _ hle _ => hle

theorem at_end (hafter : here.after = []) (h : ∀ o, ¬ ends here o) :
    Searched ends here Option.none := by
  refine none fun q o htext hle hends => ?_
  have hq := q.offset_le
  have hhere := here.offset_add_byteLength
  rw [hafter, byteLength_nil] at hhere
  have heq : q = here := Cursor.eq_of_offset htext (by rw [htext] at hq; omega)
  exact h o (heq ▸ hends)

/-- Where nothing is open at one place, the search goes on from the next. -/
theorem behind (hnext : here.next? = Option.some (x, there)) (h : ∀ o, ¬ ends here o)
    (hthere : Searched ends there r) : Searched ends here r := by
  have htext := Cursor.text_of_next? hnext
  have hoffset := (Cursor.next?_eq_some hnext).2.2
  have hlater : ∀ q o, q.text = here.text → here.offset ≤ q.offset → ends q o →
      there.offset ≤ q.offset := by
    intro q o hq hle hends
    rcases Cursor.eq_or_le_of_le hnext hq hle with rfl | hle
    · exact absurd hends (h o)
    · exact hle
  cases hthere with
  | none hnone =>
    exact none fun q o hq hle hends =>
      hnone q o (hq.trans htext.symm) (hlater q o hq hle hends) hends
  | some hplace hle hends hleast =>
    refine some (hplace.trans htext) (by omega) hends fun q o hq hle hends => ?_
    exact hleast q o (hq.trans htext.symm) (hlater q o hq hle hends) hends

end Searched

namespace Regular

/-- What comes first of some tasks at a place. -/
inductive Step where
  | stop
  | fail
  | go (tasks : List Task) (here : Cursor)
  /-- One of two ways from the place on. -/
  | choose (label : Nat) (a b : List Task)

/-- What comes first of some tasks at a place. -/
def step (r : Reading) : List Task → Cursor → Step
  | [], _ => .stop
  | .note _ :: rest, here => .go rest here
  | .run .empty :: rest, here => .go rest here
  | .run (.one set) :: rest, here =>
    match r.eat? set here with
    | some there => .go rest there
    | none => .fail
  | .run (.assertion a) :: rest, here => if a.holds here then .go rest here else .fail
  | .run (.seq a b) :: rest, here => .go (.run a :: .run b :: rest) here
  | .run (.group n e) :: rest, here => .go (.run e :: .note (2 * n + 1) :: rest) here
  | .run (.alt label a b) :: rest, _ => .choose label (.run a :: rest) (.run b :: rest)
  | .run (.star label greedy e) :: rest, _ =>
    .choose label (.run e :: .run (.star label greedy e) :: rest) rest

/-- Whether tasks can be done from a place on. -/
inductive Reaches (r : Reading) : List Task → Cursor → Prop where
  | stop {tasks : List Task} {here : Cursor} : step r tasks here = .stop → Reaches r tasks here
  | go {tasks tasks' : List Task} {here here' : Cursor} :
      step r tasks here = .go tasks' here' → Reaches r tasks' here' → Reaches r tasks here
  | left {tasks a b : List Task} {here : Cursor} {label : Nat} :
      step r tasks here = .choose label a b → Reaches r a here → Reaches r tasks here
  | right {tasks a b : List Task} {here : Cursor} {label : Nat} :
      step r tasks here = .choose label a b → Reaches r b here → Reaches r tasks here

/-- What a program does can be done before other tasks. -/
theorem reaches_of_does {r : Reading} {e : Regular} {x y : Outcome} {rest : List Task}
    (h : e.does r x y) (hrest : Reaches r rest y.here) : Reaches r (.run e :: rest) x.here := by
  induction e generalizing x y rest with
  | empty =>
    cases h
    exact .go rfl hrest
  | one set =>
    obtain ⟨there, hthere, rfl⟩ := h
    refine .go ?_ hrest
    simp only [step, hthere]
  | assertion a =>
    obtain ⟨ha, rfl⟩ := h
    refine .go ?_ hrest
    exact if_pos ha
  | seq a b iha ihb =>
    obtain ⟨z, ha, hb⟩ := h
    exact .go rfl (iha ha (ihb hb hrest))
  | alt label a b iha ihb =>
    rcases h with ha | hb
    · exact .left rfl (iha ha hrest)
    · exact .right rfl (ihb hb hrest)
  | group n e ih =>
    obtain ⟨u, rfl, v, he, rfl⟩ := h
    have hrest' : Reaches r (.note (2 * n + 1) :: rest) v.here := .go rfl hrest
    exact .go rfl (ih (x := ⟨x.here, x.slots.note (2 * n) x.here⟩) he hrest')
  | star label greedy e ih =>
    induction h using Relation.ReflTransGen.head_induction_on with
    | refl => exact .right rfl hrest
    | head hstep _ ihstar => exact .left rfl (ih hstep ihstar)

/-! ## Sites -/

/-- A choice in a program: its label, and the two ways from there. -/
abbrev Site := Nat × List Task × List Task

/-- The choices in a program that other tasks follow. -/
def sites : Regular → List Task → List Site
  | .empty, _ | .one _, _ | .assertion _, _ => []
  | .seq a b, rest => sites a (.run b :: rest) ++ sites b rest
  | .alt label a b, rest =>
    (label, .run a :: rest, .run b :: rest) :: (sites a rest ++ sites b rest)
  | .group n e, rest => sites e (.note (2 * n + 1) :: rest)
  | .star label greedy e, rest =>
    (label, .run e :: .run (.star label greedy e) :: rest, rest) ::
      sites e (.run (.star label greedy e) :: rest)

/-- The labels of the choices in a program. -/
def labels : Regular → List Nat
  | .empty | .one _ | .assertion _ => []
  | .seq a b => a.labels ++ b.labels
  | .alt label a b => label :: (a.labels ++ b.labels)
  | .group _ e => e.labels
  | .star label _ e => label :: e.labels

theorem map_fst_sites (e : Regular) (rest : List Task) :
    (e.sites rest).map Prod.fst = e.labels := by
  induction e generalizing rest with
  | empty => rfl
  | one set => rfl
  | assertion a => rfl
  | seq a b iha ihb => simp only [sites, labels, List.map_append, iha, ihb]
  | alt label a b iha ihb => simp only [sites, labels, List.map_cons, List.map_append, iha, ihb]
  | group n e ih => exact ih _
  | star label greedy e ih => simp only [sites, labels, List.map_cons, ih]

/-- The choices among some tasks are all listed. -/
def Fits (all : List Site) : List Task → Prop
  | [] => True
  | .note _ :: rest => Fits all rest
  | .run e :: rest => e.sites rest ⊆ all ∧ Fits all rest

/-- More steps than it takes to come from some tasks to the first choice among them. -/
def weight : List Task → Nat
  | [] => 0
  | .note _ :: rest => weight rest + 1
  | .run e :: rest => weight rest + e.size

section

variable {r : Reading} {all : List Site} {tasks tasks' a b : List Task} {here here' : Cursor}
  {label : Nat}

/-- A step without a choice: it brings no new choices, stays in the text and leaves less to do. -/
structure Goes (tasks tasks' : List Task) (here here' : Cursor) : Prop where
  fits : ∀ all, Fits all tasks → Fits all tasks'
  text_eq : here'.text = here.text
  weight_lt : weight tasks' < weight tasks

theorem goes_of_step (h : step r tasks here = .go tasks' here') :
    Goes tasks tasks' here here' := by
  unfold step at h
  split at h
  · simp at h
  · cases h
    exact ⟨fun _ hfits => hfits, rfl, by simp [weight]⟩
  · cases h
    exact ⟨fun _ hfits => hfits.2, rfl, by simp [weight, size]⟩
  · split at h
    · rename_i hthere
      cases h
      exact ⟨fun _ hfits => hfits.2, Reading.text_of_eat? hthere, by simp [weight, size]⟩
    · simp at h
  · split at h
    · cases h
      exact ⟨fun _ hfits => hfits.2, rfl, by simp [weight, size]⟩
    · simp at h
  · cases h
    refine ⟨?_, rfl, by simp only [weight, size]; omega⟩
    intro all hfits
    obtain ⟨ha, hb⟩ := List.append_subset.1 hfits.1
    exact ⟨ha, hb, hfits.2⟩
  · cases h
    exact ⟨fun _ hfits => hfits, rfl, by simp only [weight, size]; omega⟩
  · simp at h
  · simp at h

theorem Fits.choose (h : Fits all tasks) (hstep : step r tasks here = .choose label a b) :
    (label, a, b) ∈ all := by
  unfold step at hstep
  split at hstep
  · simp at hstep
  · simp at hstep
  · simp at hstep
  · split at hstep <;> simp at hstep
  · split at hstep <;> simp at hstep
  · simp at hstep
  · simp at hstep
  · cases hstep
    exact h.1 List.mem_cons_self
  · cases hstep
    exact h.1 List.mem_cons_self

/-- Both ways from a choice lead to listed choices only. -/
theorem fits_of_sites {e : Regular} {rest : List Task} (hsub : e.sites rest ⊆ all)
    (hrest : Fits all rest) (h : (label, a, b) ∈ e.sites rest) : Fits all a ∧ Fits all b := by
  induction e generalizing rest with
  | empty => simp [sites] at h
  | one set => simp [sites] at h
  | assertion p => simp [sites] at h
  | seq p q ihp ihq =>
    obtain ⟨hp, hq⟩ := List.append_subset.1 hsub
    rcases List.mem_append.1 h with h | h
    · exact ihp hp ⟨hq, hrest⟩ h
    · exact ihq hq hrest h
  | alt label' p q ihp ihq =>
    obtain ⟨-, hboth⟩ := List.cons_subset.1 hsub
    obtain ⟨hp, hq⟩ := List.append_subset.1 hboth
    rcases List.mem_cons.1 h with h | h
    · cases h
      exact ⟨⟨hp, hrest⟩, hq, hrest⟩
    · rcases List.mem_append.1 h with h | h
      · exact ihp hp hrest h
      · exact ihq hq hrest h
  | group n p ih => exact ih hsub hrest h
  | star label' greedy p ih =>
    have hagain : Fits all (.run (.star label' greedy p) :: rest) := ⟨hsub, hrest⟩
    obtain ⟨-, hp⟩ := List.cons_subset.1 hsub
    rcases List.mem_cons.1 h with h | h
    · cases h
      exact ⟨⟨hp, hagain⟩, hrest⟩
    · exact ih hp hagain h

end

/-- What is left to do behind a choice is bounded by the square of the size: it is at most one
    rest for each level of the program. -/
theorem weight_of_sites {e : Regular} {rest a b : List Task} {label : Nat}
    (h : (label, a, b) ∈ e.sites rest) :
    weight a ≤ weight rest + e.size * e.size ∧ weight b ≤ weight rest + e.size * e.size := by
  induction e generalizing rest with
  | empty => simp [sites] at h
  | one set => simp [sites] at h
  | assertion p => simp [sites] at h
  | seq p q ihp ihq =>
    have hq := Nat.le_mul_self q.size
    have hsq : p.size * p.size + q.size * q.size ≤ (seq p q).size * (seq p q).size := by
      simp only [size]
      nlinarith
    rcases List.mem_append.1 h with h | h
    · have := ihp h
      simp only [weight] at this
      omega
    · have := ihq h
      omega
  | alt label' p q ihp ihq =>
    have hp := Nat.le_mul_self p.size
    have hq := Nat.le_mul_self q.size
    have hsq : p.size * p.size + q.size * q.size ≤
        (alt label' p q).size * (alt label' p q).size := by
      simp only [size]
      nlinarith
    rcases List.mem_cons.1 h with h | h
    · cases h
      simp only [weight]
      omega
    · rcases List.mem_append.1 h with h | h
      · have := ihp h
        omega
      · have := ihq h
        omega
  | group n p ih =>
    have hsq : p.size * p.size + 1 ≤ (group n p).size * (group n p).size := by
      simp only [size]
      nlinarith
    have := ih h
    simp only [weight] at this
    omega
  | star label' greedy p ih =>
    have hp := Nat.le_mul_self p.size
    have hsq : p.size * p.size + (p.size + 2) ≤
        (star label' greedy p).size * (star label' greedy p).size := by
      simp only [size]
      nlinarith
    rcases List.mem_cons.1 h with h | h
    · cases h
      simp only [weight, size] at hsq ⊢
      omega
    · have := ih h
      simp only [weight, size] at this hsq ⊢
      omega

/-! ## Runs -/

/-- The choices of a program that is run in `text`, with what `run` relies on. -/
structure Listed (labels room : Nat) (all : List Site) : Prop where
  fits : ∀ label a b, (label, a, b) ∈ all → Fits all a ∧ Fits all b
  unique : ∀ label a b a' b', (label, a, b) ∈ all → (label, a', b') ∈ all → a = a' ∧ b = b'
  lt : ∀ label a b, (label, a, b) ∈ all → label < labels
  weight_le : ∀ label a b, (label, a, b) ∈ all → weight a ≤ room ∧ weight b ≤ room

/-- No way from a place on is left open: each comes to a choice that has been taken, or fails. -/
inductive Blocked (r : Reading) (labels : Nat) (taken : Taken) : List Task → Cursor → Prop where
  | fail {tasks : List Task} {here : Cursor} :
      step r tasks here = .fail → Blocked r labels taken tasks here
  | go {tasks tasks' : List Task} {here here' : Cursor} : step r tasks here = .go tasks' here' →
      Blocked r labels taken tasks' here' → Blocked r labels taken tasks here
  | taken {tasks a b : List Task} {here : Cursor} {label : Nat} :
      step r tasks here = .choose label a b → choice labels label here.offset ∈ taken →
      Blocked r labels taken tasks here

theorem Blocked.mono {r : Reading} {labels : Nat} {taken taken' : Taken} {tasks : List Task}
    {here : Cursor} (hsub : ∀ k ∈ taken, k ∈ taken') (h : Blocked r labels taken tasks here) :
    Blocked r labels taken' tasks here := by
  induction h with
  | fail hstep => exact .fail hstep
  | go hstep _ ih => exact .go hstep ih
  | taken hstep hkey => exact .taken hstep (hsub _ hkey)

/-- Behind the choices that have been taken no way is left open. -/
def Closed (r : Reading) (labels : Nat) (all : List Site) (text : List Char) (taken : Taken) :
    Prop :=
  ∀ label a b here, (label, a, b) ∈ all → here.text = text →
    choice labels label here.offset ∈ taken →
      Blocked r labels taken a here ∧ Blocked r labels taken b here

/-- Where no way is left open nothing can be reached. -/
theorem not_reaches {r : Reading} {labels : Nat} {all : List Site} {text : List Char}
    {taken : Taken} {tasks : List Task} {here : Cursor} {room : Nat} (hall : Listed labels room all)
    (hclosed : Closed r labels all text taken) (hfits : Fits all tasks) (htext : here.text = text)
    (hblocked : Blocked r labels taken tasks here) : ¬ Reaches r tasks here := by
  intro h
  induction h with
  | stop hstep => cases hblocked <;> simp_all
  | go hstep _ ih =>
    cases hblocked with
    | fail h => simp [hstep] at h
    | taken h => simp [hstep] at h
    | go h hblocked =>
      rw [hstep] at h
      cases h
      have hgoes := goes_of_step hstep
      exact ih (hgoes.fits _ hfits) (hgoes.text_eq.trans htext) hblocked
  | left hstep _ ih =>
    cases hblocked with
    | fail h => simp [hstep] at h
    | go h => simp [hstep] at h
    | taken h hkey =>
      rw [hstep] at h
      cases h
      have hsite := hfits.choose hstep
      exact ih (hall.fits _ _ _ hsite).1 htext (hclosed _ _ _ _ hsite htext hkey).1
  | right hstep _ ih =>
    cases hblocked with
    | fail h => simp [hstep] at h
    | go h => simp [hstep] at h
    | taken h hkey =>
      rw [hstep] at h
      cases h
      have hsite := hfits.choose hstep
      exact ih (hall.fits _ _ _ hsite).2 htext (hclosed _ _ _ _ hsite htext hkey).2

/-- What a run goes on with after it has taken a step of the thread on top. -/
inductive Turn (r : Reading) (labels : Nat) (t : Thread) (stack : List Thread) (taken : Taken) :
    List Thread → Taken → Prop where
  | fail : step r t.tasks t.here = .fail → Turn r labels t stack taken stack taken
  | go {u : Thread} : step r t.tasks t.here = .go u.tasks u.here →
      Turn r labels t stack taken (u :: stack) taken
  | again {label : Nat} {a b : List Task} : step r t.tasks t.here = .choose label a b →
      choice labels label t.here.offset ∈ taken → Turn r labels t stack taken stack taken
  | choose {label : Nat} {a b : List Task} {u v : Thread} :
      step r t.tasks t.here = .choose label a b → choice labels label t.here.offset ∉ taken →
      u.here = t.here → v.here = t.here →
      u.tasks = a ∧ v.tasks = b ∨ u.tasks = b ∧ v.tasks = a →
      Turn r labels t stack taken (u :: v :: stack)
        (taken.insert (choice labels label t.here.offset))

/-- A run that finds nothing takes a step of the thread on top, and then finds nothing. -/
theorem exists_turn {r : Reading} {labels fuel : Nat} {t : Thread} {stack : List Thread}
    {taken taken' : Taken} (h : run r labels (fuel + 1) (t :: stack) taken = (none, taken')) :
    ∃ stack' mid, Turn r labels t stack taken stack' mid ∧
      run r labels fuel stack' mid = (none, taken') := by
  obtain ⟨tasks, here, slots⟩ := t
  cases tasks with
  | nil => simp [run] at h
  | cons task rest =>
    cases task with
    | note slot => exact ⟨_, _, .go rfl, h⟩
    | run e =>
      cases e with
      | empty => exact ⟨_, _, .go rfl, h⟩
      | one set =>
        simp only [run] at h
        split at h
        · rename_i there hthere
          exact ⟨_, _, .go (by simp only [step, hthere]), h⟩
        · rename_i hnone
          exact ⟨_, _, .fail (by simp only [step, hnone]), h⟩
      | assertion a =>
        simp only [run] at h
        split at h
        · rename_i ha
          exact ⟨_, _, .go (by simp only [step, if_pos ha]), h⟩
        · rename_i ha
          exact ⟨_, _, .fail (by simp only [step, if_neg ha]), h⟩
      | seq a b => exact ⟨_, _, .go rfl, h⟩
      | group n e => exact ⟨_, _, .go rfl, h⟩
      | alt label a b =>
        simp only [run] at h
        split at h
        · rename_i hkey
          exact ⟨_, _, .again rfl (Std.TreeSet.contains_iff_mem.1 hkey), h⟩
        · rename_i hkey
          have hnew : choice labels label here.offset ∉ taken := by
            simpa [Std.TreeSet.contains_iff_mem] using hkey
          refine ⟨_, _, ?_, h⟩
          exact .choose rfl hnew rfl rfl (.inl ⟨rfl, rfl⟩)
      | star label greedy e =>
        simp only [run] at h
        split at h
        · rename_i hkey
          exact ⟨_, _, .again rfl (Std.TreeSet.contains_iff_mem.1 hkey), h⟩
        · rename_i hkey
          have hnew : choice labels label here.offset ∉ taken := by
            simpa [Std.TreeSet.contains_iff_mem] using hkey
          cases greedy with
          | true =>
            refine ⟨_, _, ?_, h⟩
            exact .choose rfl hnew rfl rfl (.inl ⟨rfl, rfl⟩)
          | false =>
            refine ⟨_, _, ?_, h⟩
            exact .choose rfl hnew rfl rfl (.inr ⟨rfl, rfl⟩)

/-- How many of the first `keys` choices have not been taken. -/
def untaken (keys : Nat) (taken : Taken) : Nat :=
  ((Finset.range keys).filter (· ∉ taken)).card

theorem untaken_le (keys : Nat) (taken : Taken) : untaken keys taken ≤ keys :=
  (Finset.card_filter_le _ _).trans_eq (Finset.card_range keys)

theorem untaken_insert {keys key : Nat} {taken : Taken} (hlt : key < keys) (hkey : key ∉ taken) :
    untaken keys (taken.insert key) < untaken keys taken := by
  refine Finset.card_lt_card (Finset.ssubset_iff_of_subset ?_ |>.2 ⟨key, ?_, ?_⟩)
  · intro k hk
    simp only [Finset.mem_filter, Std.TreeSet.mem_insert, not_or] at hk ⊢
    exact ⟨hk.1, hk.2.2⟩
  · simp only [Finset.mem_filter, Finset.mem_range]
    exact ⟨hlt, hkey⟩
  · simp [Finset.mem_filter]

/-- Steps enough to run the threads of a stack to the end: each choice that is taken puts two
    threads in the place of one. -/
def enough (keys room : Nat) (stack : List Thread) (taken : Taken) : Nat :=
  (stack.map fun t => weight t.tasks + 1).sum + untaken keys taken * (2 * (room + 1))

/-- A thread of a run in `text`. -/
structure Thread.Ready (all : List Site) (text : List Char) (t : Thread) : Prop where
  fits : Fits all t.tasks
  text_eq : t.here.text = text

/-- A run that found nothing has left none of its threads open, and no choice that it took. -/
structure Swept (r : Reading) (labels : Nat) (all : List Site) (text : List Char)
    (stack : List Thread) (taken taken' : Taken) : Prop where
  kept : ∀ k ∈ taken, k ∈ taken'
  blocked : ∀ t ∈ stack, Blocked r labels taken' t.tasks t.here
  behind : ∀ label a b here, (label, a, b) ∈ all → here.text = text →
    choice labels label here.offset ∈ taken' → choice labels label here.offset ∈ taken ∨
      Blocked r labels taken' a here ∧ Blocked r labels taken' b here

section

variable {r : Reading} {labels room : Nat} {all : List Site} {text : List Char} {t u v : Thread}
  {stack stack' : List Thread} {taken mid taken' : Taken}

/-- A choice is known from its number. -/
theorem choice_inj {label label' offset offset' : Nat} (hl : label < labels)
    (hl' : label' < labels) (h : choice labels label offset = choice labels label' offset') :
    label = label' ∧ offset = offset' := by
  have hmod := congrArg (· % labels) h
  have hdiv := congrArg (· / labels) h
  have hpos : 0 < labels := by omega
  simp only [choice, Nat.mul_add_mod_self_right, Nat.mod_eq_of_lt hl, Nat.mod_eq_of_lt hl'] at hmod
  simp only [choice, Nat.mul_comm _ labels, Nat.mul_add_div hpos, Nat.div_eq_of_lt hl,
    Nat.div_eq_of_lt hl', Nat.add_zero] at hdiv
  exact ⟨hmod, hdiv⟩

theorem choice_lt {label offset bytes : Nat} (hl : label < labels) (ho : offset ≤ bytes) :
    choice labels label offset < labels * (bytes + 1) := by
  have hle : offset * labels ≤ bytes * labels := Nat.mul_le_mul_right _ ho
  rw [choice, Nat.mul_add, Nat.mul_one, Nat.mul_comm labels]
  omega

theorem ready_turn (hall : Listed labels room all) (hstack : ∀ u ∈ t :: stack, u.Ready all text)
    (hturn : Turn r labels t stack taken stack' mid) : ∀ u ∈ stack', u.Ready all text := by
  obtain ⟨⟨hfits, htext⟩, hrest⟩ := List.forall_mem_cons.1 hstack
  cases hturn with
  | fail => exact hrest
  | again => exact hrest
  | go hstep =>
    have hgoes := goes_of_step hstep
    exact List.forall_mem_cons.2 ⟨⟨hgoes.fits _ hfits, hgoes.text_eq.trans htext⟩, hrest⟩
  | choose hstep _ hu hv huv =>
    have hsite := hall.fits _ _ _ (hfits.choose hstep)
    rw [← hu] at htext
    rw [List.forall_mem_cons, List.forall_mem_cons]
    rcases huv with ⟨rfl, rfl⟩ | ⟨rfl, rfl⟩
    · exact ⟨⟨hsite.1, htext⟩, ⟨hsite.2, (hv.trans hu.symm) ▸ htext⟩, hrest⟩
    · exact ⟨⟨hsite.2, htext⟩, ⟨hsite.1, (hv.trans hu.symm) ▸ htext⟩, hrest⟩

/-- Each step leaves less to do. -/
theorem enough_turn (hall : Listed labels room all) (hstack : ∀ u ∈ t :: stack, u.Ready all text)
    (hturn : Turn r labels t stack taken stack' mid) :
    enough (labels * (byteLength text + 1)) room stack' mid <
      enough (labels * (byteLength text + 1)) room (t :: stack) taken := by
  obtain ⟨⟨hfits, htext⟩, -⟩ := List.forall_mem_cons.1 hstack
  cases hturn with
  | fail => simp [enough]
  | again => simp [enough]
  | go hstep =>
    have hlt := (goes_of_step hstep).weight_lt
    simp only [enough, List.map_cons, List.sum_cons]
    omega
  | @choose label a b u v hstep hnew hu hv huv =>
    have hsite := hfits.choose hstep
    have hweight := hall.weight_le _ _ _ hsite
    have hkey : choice labels label t.here.offset < labels * (byteLength text + 1) :=
      choice_lt (hall.lt _ _ _ hsite) (htext ▸ t.here.offset_le)
    have hmul := Nat.mul_le_mul_right (2 * (room + 1)) (untaken_insert hkey hnew)
    have hsum : weight u.tasks + weight v.tasks = weight a + weight b := by
      rcases huv with ⟨rfl, rfl⟩ | ⟨rfl, rfl⟩
      · rfl
      · exact Nat.add_comm _ _
    rw [Nat.succ_mul] at hmul
    simp only [enough, List.map_cons, List.sum_cons]
    omega

theorem Swept.turn (hall : Listed labels room all)
    (hstack : ∀ u ∈ t :: stack, u.Ready all text)
    (hturn : Turn r labels t stack taken stack' mid)
    (h : Swept r labels all text stack' mid taken') :
    Swept r labels all text (t :: stack) taken taken' := by
  obtain ⟨⟨hfits, htext⟩, -⟩ := List.forall_mem_cons.1 hstack
  cases hturn with
  | fail hstep => exact ⟨h.kept, List.forall_mem_cons.2 ⟨.fail hstep, h.blocked⟩, h.behind⟩
  | go hstep =>
    obtain ⟨hu, hrest⟩ := List.forall_mem_cons.1 h.blocked
    exact ⟨h.kept, List.forall_mem_cons.2 ⟨.go hstep hu, hrest⟩, h.behind⟩
  | again hstep hkey =>
    have hblocked := Blocked.taken hstep (h.kept _ hkey)
    exact ⟨h.kept, List.forall_mem_cons.2 ⟨hblocked, h.blocked⟩, h.behind⟩
  | @choose label a b u v hstep hnew hu hv huv =>
    obtain ⟨hbu, hrest⟩ := List.forall_mem_cons.1 h.blocked
    obtain ⟨hbv, hrest⟩ := List.forall_mem_cons.1 hrest
    have hkey := h.kept _ Std.TreeSet.mem_insert_self
    have hboth : Blocked r labels taken' a t.here ∧ Blocked r labels taken' b t.here := by
      rw [hu] at hbu
      rw [hv] at hbv
      rcases huv with ⟨rfl, rfl⟩ | ⟨rfl, rfl⟩
      · exact ⟨hbu, hbv⟩
      · exact ⟨hbv, hbu⟩
    have hsite := hfits.choose hstep
    refine ⟨?_, List.forall_mem_cons.2 ⟨.taken hstep hkey, hrest⟩, ?_⟩
    · intro k hk
      exact h.kept k (Std.TreeSet.mem_insert.2 (.inr hk))
    · intro label' a' b' here hsite' hhere hkey'
      rcases h.behind _ _ _ _ hsite' hhere hkey' with hmid | hblocked
      · rcases Std.TreeSet.mem_insert.1 hmid with heq | htaken
        · -- the same number, so the same choice at the same place
          obtain ⟨rfl, hoffset⟩ := choice_inj (hall.lt _ _ _ hsite) (hall.lt _ _ _ hsite')
            (Std.LawfulEqCmp.eq_of_compare heq)
          obtain ⟨rfl, rfl⟩ := hall.unique _ _ _ _ _ hsite hsite'
          rw [Cursor.eq_of_offset (htext.trans hhere.symm) hoffset] at hboth
          exact .inr hboth
        · exact .inl htaken
      · exact .inr hblocked

/-- A run with enough steps that finds nothing has left nothing open. -/
theorem swept_of_run {fuel : Nat} (hall : Listed labels room all)
    (hstack : ∀ t ∈ stack, t.Ready all text)
    (hfuel : enough (labels * (byteLength text + 1)) room stack taken ≤ fuel)
    (h : run r labels fuel stack taken = (none, taken')) :
    Swept r labels all text stack taken taken' := by
  induction fuel generalizing stack taken with
  | zero =>
    cases stack with
    | nil =>
      cases h
      exact ⟨fun _ hk => hk, by simp, fun _ _ _ _ _ _ hkey => .inl hkey⟩
    | cons t stack => simp [enough] at hfuel
  | succ fuel ih =>
    cases stack with
    | nil =>
      cases h
      exact ⟨fun _ hk => hk, by simp, fun _ _ _ _ _ _ hkey => .inl hkey⟩
    | cons t stack =>
      obtain ⟨stack', mid, hturn, hrun⟩ := exists_turn h
      have hlt := enough_turn hall hstack hturn
      exact (ih (ready_turn hall hstack hturn) (by omega) hrun).turn hall hstack hturn

theorem Swept.closed (h : Swept r labels all text stack taken taken')
    (htaken : Closed r labels all text taken) : Closed r labels all text taken' := by
  intro label a b here hsite htext hkey
  rcases h.behind _ _ _ _ hsite htext hkey with htaken' | hblocked
  · obtain ⟨ha, hb⟩ := htaken _ _ _ _ hsite htext htaken'
    exact ⟨ha.mono h.kept, hb.mono h.kept⟩
  · exact hblocked

end

end Regular

namespace Part

open Regular

/-- The part is labelled as `run` relies on it: every choice in it has a label of its own. -/
structure Labelled (p : Part) : Prop where
  nodup : p.program.labels.Nodup
  lt : ∀ label ∈ p.program.labels, label < p.labels
  size_eq : p.size = p.program.size

instance (p : Part) : Decidable p.Labelled :=
  decidable_of_iff (p.program.labels.Nodup ∧ (∀ label ∈ p.program.labels, label < p.labels) ∧
    p.size = p.program.size) ⟨fun h => ⟨h.1, h.2.1, h.2.2⟩, fun h => ⟨h.1, h.2, h.3⟩⟩

/-- The choices in a part. -/
def sites (p : Part) : List Site :=
  p.program.sites []

variable {p : Part} {text : List Char} {taken taken' : Taken} {here place : Cursor}

theorem Labelled.listed (h : p.Labelled) : Listed p.labels (p.size * p.size) p.sites where
  fits := fun _ _ _ hsite => fits_of_sites (fun _ hx => hx) trivial hsite
  unique := by
    intro label a b a' b' hsite hsite'
    have hnodup := h.nodup
    rw [← map_fst_sites p.program []] at hnodup
    have heq := List.inj_on_of_nodup_map hnodup hsite hsite' rfl
    simpa using heq
  lt := by
    intro label a b hsite
    refine h.lt label ?_
    rw [← map_fst_sites p.program []]
    exact List.mem_map_of_mem hsite
  weight_le := by
    intro label a b hsite
    have hweight := weight_of_sites hsite
    rw [h.size_eq]
    simpa [weight] using hweight

/-- The thread that a search starts with at a place. -/
def opening (p : Part) (here : Cursor) : Thread :=
  ⟨[.run p.program], here, .none⟩

theorem enough_opening (h : p.Labelled) (here : Cursor) (taken : Taken) (bytes : Nat) :
    enough (p.labels * (bytes + 1)) (p.size * p.size) [p.opening here] taken ≤
      steps p.labels p.size bytes := by
  have hle := untaken_le (p.labels * (bytes + 1)) taken
  have hmul := Nat.mul_le_mul_right (2 * (p.size * p.size + 1)) hle
  have hsize := Nat.le_mul_self p.size
  simp only [enough, opening, weight, List.map_cons, List.map_nil, List.sum_cons, List.sum_nil,
    ← h.size_eq, steps]
  nlinarith

/-- A run from one place on that finds nothing: there is no match at that place. -/
theorem not_does_of_run (h : p.Labelled) (htext : here.text = text)
    (hclosed : Closed ⟨false, byteLength text⟩ p.labels p.sites text taken)
    (hrun : run ⟨false, byteLength text⟩ p.labels (steps p.labels p.size (byteLength text))
      [p.opening here] taken = (none, taken')) :
    (∀ o, ¬ p.program.does ⟨false, byteLength text⟩ ⟨here, .none⟩ o) ∧
      Closed ⟨false, byteLength text⟩ p.labels p.sites text taken' := by
  have hfits : Fits p.sites [.run p.program] := ⟨fun _ hx => hx, trivial⟩
  have hready : ∀ t ∈ [p.opening here], t.Ready p.sites text :=
    List.forall_mem_singleton.2 ⟨hfits, htext⟩
  have hswept := swept_of_run h.listed hready (enough_opening h here taken _) hrun
  have hclosed' := hswept.closed hclosed
  refine ⟨?_, hclosed'⟩
  intro o hdoes
  have hblocked := hswept.blocked _ List.mem_cons_self
  have hreaches : Reaches ⟨false, byteLength text⟩ [.run p.program] here :=
    reaches_of_does hdoes (.stop rfl)
  exact not_reaches h.listed hclosed' hfits htext hblocked hreaches

/-- A search for a part is exact. -/
theorem searched_searchFrom (h : p.Labelled) (htext : here.text = text)
    (hclosed : Closed ⟨false, byteLength text⟩ p.labels p.sites text taken) :
    Searched (fun q o => p.program.does ⟨false, byteLength text⟩ ⟨q, .none⟩ o) here
      (p.searchFrom (byteLength text) here.after here taken) := by
  generalize hrest : here.after = rest
  induction rest generalizing here taken with
  | nil =>
    unfold searchFrom
    split
    · rename_i found taken' hrun
      exact .at_here (does_of_run (congrArg Prod.fst hrun))
    · rename_i taken' hrun
      exact .at_end hrest (not_does_of_run h htext hclosed hrun).1
  | cons x rest ih =>
    unfold searchFrom
    split
    · rename_i found taken' hrun
      exact .at_here (does_of_run (congrArg Prod.fst hrun))
    · rename_i taken' hrun
      obtain ⟨hnot, hclosed'⟩ := not_does_of_run h htext hclosed hrun
      obtain ⟨there, hnext, hafter⟩ := Cursor.next?_cons hrest
      rw [hnext]
      exact .behind hnext hnot (ih ((Cursor.text_of_next? hnext).trans htext) hclosed' hafter)

theorem closed_empty {r : Reading} {labels : Nat} {all : List Site} :
    Closed r labels all text ∅ := by
  intro label a b there _ _ hkey
  simp at hkey

theorem searched_search (h : p.Labelled) (here : Cursor) :
    Searched (fun q o => p.program.does ⟨false, byteLength here.text⟩ ⟨q, .none⟩ o) here
      (p.search (byteLength here.text) here) :=
  searched_searchFrom h rfl closed_empty

/-- Whether a part has a match at a place. -/
theorem first_eq_none_iff (h : p.Labelled) (here : Cursor) :
    p.first (byteLength here.text) here = none ↔
      ∀ o, ¬ p.program.does ⟨false, byteLength here.text⟩ ⟨here, .none⟩ o := by
  constructor
  · intro hnone
    exact (not_does_of_run h rfl closed_empty (Prod.ext hnone rfl)).1
  · intro hnot
    cases hfirst : p.first (byteLength here.text) here with
    | none => rfl
    | some o => exact absurd (does_of_first hfirst) (hnot o)

end Part

end SyntaxHue
