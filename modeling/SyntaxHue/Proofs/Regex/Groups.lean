import SyntaxHue.Proofs.Regex.Motion

/-!
# Where an outline notes a group

The cut for look-behind takes the first group for the front of the match. An outline shows whether
that is so: a group leads if all ways note it where they begin, or not at all. The match itself is
group 0, which frames the rest of the outline but for what looks ahead behind it.
-/

namespace SyntaxHue

namespace Outline

variable {e : Outline} {x y : Regular.Outcome} {n : Nat} {c : Char}

/-- Group `n` is noted where the outline begins, or not at all. -/
def leads (n : Nat) : Outline → Bool
  | skip | one _ => true
  | seq a b =>
    (a.leads n && b.keeps n && b.forward) || (a.still && a.keeps n && b.leads n)
  | alt a b => a.leads n && b.leads n
  | group m e => if m = n then e.keeps n && e.forward else e.leads n
  | star e => e.keeps n
  | wild => false

/-- Between `x` and `y`, group `n` has no place, or it starts at `x` and ends no later than `y`. -/
def Leads (n : Nat) (x y : Regular.Outcome) : Prop :=
  (y.slots.get? (2 * n) = none ∧ y.slots.get? (2 * n + 1) = none) ∨
    ∃ stop, y.slots.get? (2 * n) = some x.here ∧ y.slots.get? (2 * n + 1) = some stop ∧
      x.here.offset ≤ stop.offset ∧ stop.offset ≤ y.here.offset

/-- Group `n` has no place. -/
def Unset (n : Nat) (x : Regular.Outcome) : Prop :=
  x.slots.get? (2 * n) = none ∧ x.slots.get? (2 * n + 1) = none

theorem Same.unset (hxy : Same n x y) (hx : Unset n x) : Unset n y :=
  ⟨hxy.1.trans hx.1, hxy.2.trans hx.2⟩

theorem Leads.mono {z : Regular.Outcome} (hxy : Leads n x y) (hyz : Same n y z)
    (hle : y.here.offset ≤ z.here.offset) : Leads n x z := by
  rcases hxy with hunset | ⟨stop, hstart, hstop, hbegin, hend⟩
  · exact Or.inl (hyz.unset hunset)
  · exact Or.inr ⟨stop, hyz.1.trans hstart, hyz.2.trans hstop, hbegin, Nat.le_trans hend hle⟩

/-- A group notes where it starts and where it ends. -/
theorem noted_of_group (hkeeps : e.keeps n = true) (hxy : (group n e).does x y) :
    y.slots.get? (2 * n) = some x.here ∧ y.slots.get? (2 * n + 1) = some y.here ∧
      ∃ z, e.does ⟨x.here, x.slots.note (2 * n) x.here⟩ z ∧ z.here = y.here := by
  obtain ⟨_, rfl, z, hz, rfl⟩ := hxy
  refine ⟨?_, ?_, z, hz, rfl⟩
  · rw [Slots.get?_note, if_neg (by omega), (same_of_keeps hkeeps hz).1, Slots.get?_note,
      if_pos rfl]
  · rw [Slots.get?_note, if_pos rfl]

theorem leads_of_does (h : e.leads n = true) (hx : Unset n x) (hxy : e.does x y) :
    Leads n x y := by
  induction e generalizing x y with
  | skip =>
    cases hxy
    exact Or.inl hx
  | one set =>
    obtain ⟨there, -, rfl⟩ := hxy
    exact Or.inl hx
  | seq a b iha ihb =>
    simp only [leads, Bool.or_eq_true, Bool.and_eq_true] at h
    obtain ⟨z, hxz, hzy⟩ := hxy
    rcases h with ⟨⟨ha, hb⟩, hforward⟩ | ⟨⟨hstill, ha⟩, hb⟩
    · exact (iha ha hx hxz).mono (same_of_keeps hb hzy) (le_of_forward hforward hzy)
    · have hz := ihb hb ((same_of_keeps ha hxz).unset hx) hzy
      rwa [Leads, here_of_still hstill hxz] at hz
  | alt a b iha ihb =>
    simp only [leads, Bool.and_eq_true] at h
    rcases hxy with hxy | hxy
    · exact iha h.1 hx hxy
    · exact ihb h.2 hx hxy
  | group m e ih =>
    rw [leads] at h
    split at h
    · rename_i heq
      subst heq
      simp only [Bool.and_eq_true] at h
      obtain ⟨hstart, hstop, z, hz, hhere⟩ := noted_of_group h.1 hxy
      refine Or.inr ⟨y.here, hstart, hstop, ?_, Nat.le_refl _⟩
      have hle := le_of_forward h.2 hz
      rwa [hhere] at hle
    · rename_i hne
      obtain ⟨_, rfl, z, hz, rfl⟩ := hxy
      have hinner := ih h ((same_note hne (Or.inl rfl)).unset hx) hz
      exact Leads.mono hinner (same_note hne (Or.inr rfl)) (Nat.le_refl _)
  | star e ih => exact Or.inl ((same_of_keeps (e := .star e) h hxy).unset hx)
  | wild => simp [leads] at h

/-- Group `n` is noted and takes text. -/
def fills (n : Nat) : Outline → Bool
  | seq a b => (a.fills n && b.keeps n) || b.fills n
  | alt a b => a.fills n && b.fills n
  | group m e => m == n && e.keeps n && e.takes
  | _ => false

theorem lt_of_fills (h : e.fills n = true) (hxy : e.does x y) :
    ∃ start stop, y.slots.get? (2 * n) = some start ∧ y.slots.get? (2 * n + 1) = some stop ∧
      start.offset < stop.offset := by
  induction e generalizing x y with
  | seq a b iha ihb =>
    simp only [fills, Bool.or_eq_true, Bool.and_eq_true] at h
    obtain ⟨z, hxz, hzy⟩ := hxy
    rcases h with ⟨ha, hb⟩ | hb
    · obtain ⟨start, stop, hstart, hstop, hlt⟩ := iha ha hxz
      have hsame := same_of_keeps hb hzy
      exact ⟨start, stop, hsame.1.trans hstart, hsame.2.trans hstop, hlt⟩
    · exact ihb hb hzy
  | alt a b iha ihb =>
    simp only [fills, Bool.and_eq_true] at h
    rcases hxy with hxy | hxy
    · exact iha h.1 hxy
    · exact ihb h.2 hxy
  | group m e ih =>
    simp only [fills, Bool.and_eq_true, beq_iff_eq] at h
    obtain ⟨⟨rfl, hkeeps⟩, htakes⟩ := h
    obtain ⟨hstart, hstop, z, hz, hhere⟩ := noted_of_group hkeeps hxy
    refine ⟨x.here, y.here, hstart, hstop, ?_⟩
    have hlt := lt_of_takes htakes hz
    rwa [hhere] at hlt
  | _ => simp [fills] at h

/-- Behind group `n` the text that is taken begins with `c`. -/
def opens (n : Nat) (c : Char) : Outline → Bool
  | seq (group m a) b => m == n && a.keeps n && b.keeps n && b.begins c
  | _ => false

theorem after_of_opens (h : e.opens n c = true) (hxy : e.does x y) :
    ∃ start stop, y.slots.get? (2 * n) = some start ∧ y.slots.get? (2 * n + 1) = some stop ∧
      stop.after.head? = some c ∧ stop.offset < y.here.offset := by
  unfold opens at h
  split at h
  · simp only [Bool.and_eq_true, beq_iff_eq] at h
    obtain ⟨⟨⟨rfl, ha⟩, hb⟩, hbegins⟩ := h
    obtain ⟨z, hxz, hzy⟩ := hxy
    obtain ⟨hstart, hstop, -⟩ := noted_of_group ha hxz
    have hsame := same_of_keeps hb hzy
    obtain ⟨hafter, hlt⟩ := after_of_begins hbegins hzy
    exact ⟨x.here, z.here, hsame.1.trans hstart, hsame.2.trans hstop, hafter, hlt⟩
  · simp at h

/-- What is in group 0, if nothing but a look ahead follows that group. -/
def framed? : Outline → Option Outline
  | group 0 body => if body.keeps 0 && body.forward then some body else none
  | seq (group 0 body) tail =>
    if body.keeps 0 && body.forward && tail.keeps 0 && tail.keeps 1 then some body else none
  | _ => none

/-- A match is what the body of the frame does from the place where the match starts. -/
theorem does_of_framed {body : Outline} {place : Cursor} (h : e.framed? = some body)
    (hy : e.does ⟨place, .none⟩ y) : ∃ z, body.does ⟨place, Slots.none.note 0 place⟩ z ∧
      y.slots.span? 0 = some ⟨place, z.here⟩ ∧ place.offset ≤ z.here.offset ∧ Same 1 z y := by
  have hgroup : ∀ z, body.keeps 0 = true → body.forward = true →
      (group 0 body).does ⟨place, .none⟩ z →
        ∃ u, body.does ⟨place, Slots.none.note 0 place⟩ u ∧
          z.slots.span? 0 = some ⟨place, u.here⟩ ∧ place.offset ≤ u.here.offset ∧ Same 1 u z := by
    intro z hkeeps hforward hz
    obtain ⟨hstart, hstop, -⟩ := noted_of_group hkeeps hz
    obtain ⟨_, rfl, u, hu, rfl⟩ := hz
    refine ⟨u, hu, Slots.span?_eq_some.2 ⟨hstart, hstop⟩, le_of_forward hforward hu, ?_⟩
    exact same_note (by omega) (Or.inr rfl)
  unfold framed? at h
  split at h
  · split at h
    · rename_i hbody
      cases h
      simp only [Bool.and_eq_true] at hbody
      exact hgroup y hbody.1 hbody.2 hy
    · simp at h
  · split at h
    · rename_i hbody
      cases h
      simp only [Bool.and_eq_true] at hbody
      obtain ⟨⟨⟨hkeeps, hforward⟩, htail₀⟩, htail₁⟩ := hbody
      obtain ⟨z, hz, hzy⟩ := hy
      obtain ⟨u, hu, hspan, hle, hsame⟩ := hgroup z hkeeps hforward hz
      obtain ⟨hstart, hstop⟩ := Slots.span?_eq_some.1 hspan
      have hsame₀ := same_of_keeps htail₀ hzy
      refine ⟨u, hu, Slots.span?_eq_some.2 ⟨?_, ?_⟩, hle, hsame.trans (same_of_keeps htail₁ hzy)⟩
      · exact hsame₀.1.trans hstart
      · exact hsame₀.2.trans hstop
    · simp at h
  · simp at h

end Outline

end SyntaxHue
