import SyntaxHue.Proofs.Regex.Match

/-!
# Outlines of programs

An outline says which characters a program can move over and where it notes groups. Conditions
that move nothing are left out, so an outline allows more than the program does. What can be read
off an outline is therefore true of every match: the functions here that return a `Bool` look for
reasons why all ways through it have some property.
-/

namespace SyntaxHue

/-- An outline of what a program does. -/
inductive Outline where
  | skip
  | one (set : CharClass)
  | seq (a b : Outline)
  | alt (a b : Outline)
  | group (n : Nat) (e : Outline)
  | star (e : Outline)
  /-- Something of which nothing is known. -/
  | wild

namespace Outline

/-- What an outline allows. -/
def does : Outline → Behaviour
  | skip => .skip
  | one set => .move (Cursor.eat? set)
  | seq a b => .seq a.does b.does
  | alt a b => .alt a.does b.does
  | group n e => .group n e.does
  | star e => .star e.does
  | wild => fun _ _ => True

/-- No group is noted. -/
def quiet : Outline → Bool
  | skip | one _ => true
  | seq a b | alt a b => a.quiet && b.quiet
  | star e => e.quiet
  | group .. | wild => false

/-- What an outline without groups allows has nothing to do with the groups. -/
theorem does_of_quiet {e : Outline} (h : e.quiet = true) {x y : Regular.Outcome} (hxy : e.does x y)
    (slots : Slots) : y.slots = x.slots ∧ e.does ⟨x.here, slots⟩ ⟨y.here, slots⟩ := by
  induction e generalizing x y with
  | skip =>
    cases hxy
    exact ⟨rfl, rfl⟩
  | one set =>
    obtain ⟨there, hthere, rfl⟩ := hxy
    exact ⟨rfl, there, hthere, rfl⟩
  | seq a b iha ihb =>
    simp only [quiet, Bool.and_eq_true] at h
    obtain ⟨z, hxz, hzy⟩ := hxy
    obtain ⟨hz, ha⟩ := iha h.1 hxz
    obtain ⟨hy, hb⟩ := ihb h.2 hzy
    exact ⟨hy.trans hz, _, ha, hb⟩
  | alt a b iha ihb =>
    simp only [quiet, Bool.and_eq_true] at h
    rcases hxy with hxy | hxy
    · exact ⟨(iha h.1 hxy).1, Or.inl (iha h.1 hxy).2⟩
    · exact ⟨(ihb h.2 hxy).1, Or.inr (ihb h.2 hxy).2⟩
  | star e ih =>
    induction hxy with
    | refl => exact ⟨rfl, Relation.ReflTransGen.refl⟩
    | tail _ hstep ihstar =>
      obtain ⟨hmid, hstar⟩ := ihstar
      obtain ⟨hlast, he⟩ := ih h hstep
      exact ⟨hlast.trans hmid, hstar.tail he⟩
  | group n e ih => simp [quiet] at h
  | wild => simp [quiet] at h

end Outline

namespace Behaviour

/-- All that `a` does is done by `b`. -/
def Le (a b : Behaviour) : Prop :=
  ∀ x y, a x y → b x y

variable {a b c d : Behaviour}

theorem Le.seq (hac : a.Le c) (hbd : b.Le d) : (a.seq b).Le (c.seq d) := by
  rintro x z ⟨y, ha, hb⟩
  exact ⟨y, hac x y ha, hbd y z hb⟩

theorem Le.alt (hac : a.Le c) (hbd : b.Le d) : (a.alt b).Le (c.alt d) := by
  rintro x y (h | h)
  · exact Or.inl (hac x y h)
  · exact Or.inr (hbd x y h)

theorem Le.group (n : Nat) (hac : a.Le c) : (Behaviour.group n a).Le (Behaviour.group n c) :=
  Le.seq (fun _ _ h => h) (Le.seq hac fun _ _ h => h)

theorem Le.star (hac : a.Le c) : (star a).Le (star c) :=
  fun x y h => Relation.ReflTransGen.mono hac x y h

theorem check_le_skip (p : Regular.Outcome → Bool) : (check p).Le skip :=
  fun _ _ h => h.2

end Behaviour

namespace Regular

/-- The outline of a regular program. -/
def outline : Regular → Outline
  | empty | assertion _ => .skip
  | one set => .one set
  | seq a b => .seq a.outline b.outline
  | alt _ a b => .alt a.outline b.outline
  | group n e => .group n e.outline
  | star _ _ e => .star e.outline

theorem does_le_outline (bound : Nat) (e : Regular) :
    (e.does ⟨false, bound⟩).Le e.outline.does := by
  induction e with
  | empty => exact fun _ _ h => h
  | one set =>
    rintro x y ⟨there, hthere, rfl⟩
    refine ⟨there, ?_, rfl⟩
    simp only [Reading.eat?, Bool.false_eq_true, if_false] at hthere
    split at hthere
    · exact hthere
    · simp at hthere
  | assertion a => exact Behaviour.check_le_skip _
  | seq a b iha ihb => exact iha.seq ihb
  | alt _ a b iha ihb => exact iha.alt ihb
  | group n e ih => exact ih.group n
  | star _ _ e ih => exact ih.star

end Regular

namespace Program

/-- The outline of a program. Parts are outlined if they have no groups to take over, and what is
    looked at without moving is left out if it notes no groups. -/
def outline : Program → Outline
  | empty | assertion _ | refuse _ | searchStart | isSet _ => .skip
  | one set => .one set
  | part p => if p.groups.isEmpty && p.program.outline.quiet then p.program.outline else .wild
  | seq a b => .seq a.outline b.outline
  | alt a b => .alt a.outline b.outline
  | group n e => .group n e.outline
  | star _ e | times _ _ _ e | passes _ _ e => .star e.outline
  | atomic e => e.outline
  | stay e => if e.outline.quiet then .skip else .wild
  | cond test yes no => .alt (.seq test.outline yes.outline) no.outline
  | back _ | backOver .. | backref .. | keepOut => .wild

theorem does_le_outline (ctx : Backtracking.Context) (e : Program) :
    (e.does ctx).Le e.outline.does := by
  induction e with
  | empty | refuse => exact fun _ _ h => h
  | one set => exact fun _ _ h => h
  | assertion a => exact Behaviour.check_le_skip _
  | searchStart => exact Behaviour.check_le_skip _
  | isSet n => exact Behaviour.check_le_skip _
  | part p =>
    rintro x y ⟨o, hfirst, rfl⟩
    rw [outline]
    split
    · rename_i hquiet
      simp only [Bool.and_eq_true, List.isEmpty_iff] at hquiet
      have hdoes := Regular.does_le_outline _ _ _ _ (Part.does_of_first hfirst)
      rw [hquiet.1]
      exact (Outline.does_of_quiet hquiet.2 hdoes x.slots).2
    · trivial
  | seq a b iha ihb => exact iha.seq ihb
  | alt a b iha ihb => exact iha.alt ihb
  | group n e ih => exact ih.group n
  | star _ e ih => exact ih.star
  | times _ _ _ e ih => exact ih.star
  | passes _ _ e ih => exact ih.star
  | atomic e ih => exact ih
  | stay e ih =>
    rintro x y ⟨z, hz, rfl⟩
    rw [outline]
    split
    · rename_i hquiet
      have hslots := (Outline.does_of_quiet hquiet (ih x z hz) x.slots).1
      rw [hslots]
      rfl
    · trivial
  | cond test yes no iht ihy ihn => exact (iht.seq ihy).alt ihn
  | back width => exact fun _ _ _ => trivial
  | backOver p ahead => exact fun _ _ _ => trivial
  | backref n anyCase => exact fun _ _ _ => trivial
  | keepOut => exact fun _ _ _ => trivial

end Program

namespace Regex

/-- The outline of a compiled expression. -/
def outline (r : Regex) : Outline :=
  match r.matcher with
  | .regular p => p.program.outline
  | .backtracking e => e.outline

theorem does_le_outline (r : Regex) (origin bytes : Nat) :
    (r.does origin bytes).Le r.outline.does := by
  obtain ⟨matcher, groups⟩ := r
  cases matcher with
  | regular p => exact Regular.does_le_outline _ _
  | backtracking e => exact Program.does_le_outline _ e

end Regex

end SyntaxHue
