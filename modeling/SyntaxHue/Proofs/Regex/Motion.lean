import SyntaxHue.Proofs.Regex.Outline

/-!
# What can be read off an outline

Where an outline leads: whether it moves forward, whether it takes text and with which character
that begins, and where it notes a group. Each function of this module is followed by the theorem
that says what its answer means.
-/

namespace SyntaxHue

namespace CharClass

/-- Whether the class has no character but `c`. -/
def isSingle (c : Char) : CharClass → Bool
  | none => true
  | range lo hi => lo == c && hi == c
  | union a b => a.isSingle c && b.isSingle c
  | _ => false

theorem eq_of_isSingle {set : CharClass} {c x : Char} (h : set.isSingle c = true)
    (hx : set.mem x = true) : x = c := by
  induction set with
  | none => simp [mem] at hx
  | range lo hi =>
    simp only [isSingle, Bool.and_eq_true, beq_iff_eq] at h
    simp only [mem, Bool.and_eq_true, decide_eq_true_eq] at hx
    exact Char.le_antisymm (h.2 ▸ hx.2) (h.1 ▸ hx.1)
  | union a b iha ihb =>
    simp only [isSingle, Bool.and_eq_true] at h
    simp only [mem, Bool.or_eq_true] at hx
    rcases hx with hx | hx
    · exact iha h.1 hx
    · exact ihb h.2 hx
  | _ => simp [isSingle] at h

end CharClass

theorem Cursor.eat?_eq_some {set : CharClass} {c d : Cursor} (h : c.eat? set = some d) :
    ∃ x, set.mem x = true ∧ c.after = x :: d.after ∧ c.offset < d.offset := by
  unfold eat? at h
  split at h
  · rename_i x there hnext
    split at h
    · rename_i hx
      cases h
      obtain ⟨-, hafter, hoffset⟩ := next?_eq_some hnext
      have := x.utf8Size_pos
      exact ⟨x, hx, hafter, by omega⟩
    · simp at h
  · simp at h

namespace Outline

variable {e : Outline} {x y : Regular.Outcome} {n : Nat} {c : Char}

/-- Nothing moves back. -/
def forward : Outline → Bool
  | skip | one _ => true
  | seq a b | alt a b => a.forward && b.forward
  | group _ e | star e => e.forward
  | wild => false

theorem le_of_forward (h : e.forward = true) (hxy : e.does x y) :
    x.here.offset ≤ y.here.offset := by
  induction e generalizing x y with
  | skip =>
    cases hxy
    exact Nat.le_refl _
  | one set =>
    obtain ⟨there, hthere, rfl⟩ := hxy
    obtain ⟨-, -, -, hlt⟩ := Cursor.eat?_eq_some hthere
    exact Nat.le_of_lt hlt
  | seq a b iha ihb =>
    simp only [forward, Bool.and_eq_true] at h
    obtain ⟨z, hxz, hzy⟩ := hxy
    exact Nat.le_trans (iha h.1 hxz) (ihb h.2 hzy)
  | alt a b iha ihb =>
    simp only [forward, Bool.and_eq_true] at h
    rcases hxy with hxy | hxy
    · exact iha h.1 hxy
    · exact ihb h.2 hxy
  | group m e ih =>
    obtain ⟨_, rfl, z, hz, rfl⟩ := hxy
    have hinner := ih h hz
    exact hinner
  | star e ih =>
    induction hxy with
    | refl => exact Nat.le_refl _
    | tail _ hstep ihstar => exact Nat.le_trans ihstar (ih h hstep)
  | wild => simp [forward] at h

/-- Nothing moves. -/
def still : Outline → Bool
  | skip => true
  | seq a b | alt a b => a.still && b.still
  | group _ e => e.still
  | _ => false

theorem here_of_still (h : e.still = true) (hxy : e.does x y) : y.here = x.here := by
  induction e generalizing x y with
  | skip =>
    cases hxy
    rfl
  | seq a b iha ihb =>
    simp only [still, Bool.and_eq_true] at h
    obtain ⟨z, hxz, hzy⟩ := hxy
    exact (ihb h.2 hzy).trans (iha h.1 hxz)
  | alt a b iha ihb =>
    simp only [still, Bool.and_eq_true] at h
    rcases hxy with hxy | hxy
    · exact iha h.1 hxy
    · exact ihb h.2 hxy
  | group m e ih =>
    obtain ⟨_, rfl, z, hz, rfl⟩ := hxy
    have hinner := ih h hz
    exact hinner
  | _ => simp [still] at h

/-- Some text is taken. -/
def takes : Outline → Bool
  | one _ => true
  | seq a b => (a.takes && b.forward) || (a.forward && b.takes)
  | alt a b => a.takes && b.takes
  | group _ e => e.takes
  | _ => false

theorem lt_of_takes (h : e.takes = true) (hxy : e.does x y) : x.here.offset < y.here.offset := by
  induction e generalizing x y with
  | one set =>
    obtain ⟨there, hthere, rfl⟩ := hxy
    obtain ⟨-, -, -, hlt⟩ := Cursor.eat?_eq_some hthere
    exact hlt
  | seq a b iha ihb =>
    simp only [takes, Bool.or_eq_true, Bool.and_eq_true] at h
    obtain ⟨z, hxz, hzy⟩ := hxy
    rcases h with h | h
    · exact Nat.lt_of_lt_of_le (iha h.1 hxz) (le_of_forward h.2 hzy)
    · exact Nat.lt_of_le_of_lt (le_of_forward h.1 hxz) (ihb h.2 hzy)
  | alt a b iha ihb =>
    simp only [takes, Bool.and_eq_true] at h
    rcases hxy with hxy | hxy
    · exact iha h.1 hxy
    · exact ihb h.2 hxy
  | group m e ih =>
    obtain ⟨_, rfl, z, hz, rfl⟩ := hxy
    have hinner := ih h hz
    exact hinner
  | _ => simp [takes] at h

/-- The text that is taken begins with `c`. -/
def begins (c : Char) : Outline → Bool
  | one set => set.isSingle c
  | seq a b => (a.begins c && b.forward) || (a.still && b.begins c)
  | alt a b => a.begins c && b.begins c
  | group _ e => e.begins c
  | _ => false

theorem after_of_begins (h : e.begins c = true) (hxy : e.does x y) :
    x.here.after.head? = some c ∧ x.here.offset < y.here.offset := by
  induction e generalizing x y with
  | one set =>
    obtain ⟨there, hthere, rfl⟩ := hxy
    obtain ⟨ch, hmem, hafter, hlt⟩ := Cursor.eat?_eq_some hthere
    rw [hafter, CharClass.eq_of_isSingle h hmem]
    exact ⟨rfl, hlt⟩
  | seq a b iha ihb =>
    simp only [begins, Bool.or_eq_true, Bool.and_eq_true] at h
    obtain ⟨z, hxz, hzy⟩ := hxy
    rcases h with h | h
    · exact ⟨(iha h.1 hxz).1, Nat.lt_of_lt_of_le (iha h.1 hxz).2 (le_of_forward h.2 hzy)⟩
    · rw [← here_of_still h.1 hxz]
      exact ihb h.2 hzy
  | alt a b iha ihb =>
    simp only [begins, Bool.and_eq_true] at h
    rcases hxy with hxy | hxy
    · exact iha h.1 hxy
    · exact ihb h.2 hxy
  | group m e ih =>
    obtain ⟨_, rfl, z, hz, rfl⟩ := hxy
    have hinner := ih h hz
    exact hinner
  | _ => simp [begins] at h

/-- Group `n` is not noted. -/
def keeps (n : Nat) : Outline → Bool
  | skip | one _ => true
  | seq a b | alt a b => a.keeps n && b.keeps n
  | group m e => m != n && e.keeps n
  | star e => e.keeps n
  | wild => false

/-- Both sides have the same places for group `n`. -/
def Same (n : Nat) (x y : Regular.Outcome) : Prop :=
  y.slots.get? (2 * n) = x.slots.get? (2 * n) ∧
    y.slots.get? (2 * n + 1) = x.slots.get? (2 * n + 1)

theorem Same.trans {z : Regular.Outcome} (hxy : Same n x y) (hyz : Same n y z) : Same n x z :=
  ⟨hyz.1.trans hxy.1, hyz.2.trans hxy.2⟩

/-- To note one group leaves the others alone. -/
theorem same_note {m slot : Nat} {here : Cursor} {slots : Slots} (hm : m ≠ n)
    (hslot : slot = 2 * m ∨ slot = 2 * m + 1) :
    Same n ⟨here, slots⟩ ⟨here, slots.note slot here⟩ := by
  constructor
  · rw [Slots.get?_note, if_neg (by omega)]
  · rw [Slots.get?_note, if_neg (by omega)]

theorem same_of_keeps (h : e.keeps n = true) (hxy : e.does x y) : Same n x y := by
  induction e generalizing x y with
  | skip =>
    cases hxy
    exact ⟨rfl, rfl⟩
  | one set =>
    obtain ⟨there, hthere, rfl⟩ := hxy
    exact ⟨rfl, rfl⟩
  | seq a b iha ihb =>
    simp only [keeps, Bool.and_eq_true] at h
    obtain ⟨z, hxz, hzy⟩ := hxy
    exact (iha h.1 hxz).trans (ihb h.2 hzy)
  | alt a b iha ihb =>
    simp only [keeps, Bool.and_eq_true] at h
    rcases hxy with hxy | hxy
    · exact iha h.1 hxy
    · exact ihb h.2 hxy
  | group m e ih =>
    simp only [keeps, Bool.and_eq_true, bne_iff_ne] at h
    obtain ⟨_, rfl, z, hz, rfl⟩ := hxy
    exact ((same_note h.1 (Or.inl rfl)).trans (ih h.2 hz)).trans (same_note h.1 (Or.inr rfl))
  | star e ih =>
    induction hxy with
    | refl => exact ⟨rfl, rfl⟩
    | tail _ hstep ihstar => exact ihstar.trans (ih h hstep)
  | wild => simp [keeps] at h

end Outline

end SyntaxHue
