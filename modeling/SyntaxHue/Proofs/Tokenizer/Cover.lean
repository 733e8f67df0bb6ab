import SyntaxHue.Proofs.Place
import SyntaxHue.Tokenizer

/-!
# What nodes stand for

The nodes of a level stand, one after the other, for the text of the level. A token takes as
many bytes of it as its length says. Where a token is in a stream is told by the bytes before it.
-/

namespace SyntaxHue

namespace Node

@[simp] theorem length_text (s : String) : (text s).length = s.utf8ByteSize := rfl

@[simp] theorem length_token (t : Token) : (token t).length = t.length := rfl

end Node

namespace Tokenizer

/-- The length of the text that nodes stand for, in bytes. -/
def totalLength : List Node → Nat
  | [] => 0
  | node :: nodes => node.length + totalLength nodes

@[simp] theorem totalLength_nil : totalLength [] = 0 := rfl

@[simp] theorem totalLength_cons (node : Node) (nodes : List Node) :
    totalLength (node :: nodes) = node.length + totalLength nodes := rfl

@[simp] theorem totalLength_append (xs ys : List Node) :
    totalLength (xs ++ ys) = totalLength xs + totalLength ys := by
  induction xs with
  | nil => simp
  | cons node xs ih => rw [List.cons_append, totalLength_cons, totalLength_cons, ih, Nat.add_assoc]

/-- The token `t` is among the nodes, with `offset` bytes before it. -/
def TokenAt (nodes : List Node) (offset : Nat) (t : Token) : Prop :=
  ∃ before after, nodes = before ++ .token t :: after ∧ totalLength before = offset

theorem tokenAt_append {xs ys : List Node} {offset : Nat} {t : Token} :
    TokenAt (xs ++ ys) offset t ↔
      TokenAt xs offset t ∨ ∃ k, offset = totalLength xs + k ∧ TokenAt ys k t := by
  constructor
  · rintro ⟨before, after, heq, rfl⟩
    rcases List.append_eq_append_iff.1 heq with ⟨mid, rfl, hys⟩ | ⟨mid, hxs, hafter⟩
    · exact Or.inr ⟨totalLength mid, by simp, mid, after, hys, rfl⟩
    · cases mid with
      | nil =>
        simp only [List.append_nil, List.nil_append] at hxs hafter
        subst hxs
        exact Or.inr ⟨0, rfl, [], after, hafter.symm, rfl⟩
      | cons node mid =>
        simp only [List.cons_append, List.cons.injEq] at hafter
        obtain ⟨rfl, rfl⟩ := hafter
        exact Or.inl ⟨before, mid, hxs, rfl⟩
  · rintro (⟨before, after, rfl, hoffset⟩ | ⟨k, rfl, before, after, rfl, rfl⟩)
    · exact ⟨before, after ++ ys, by simp, hoffset⟩
    · exact ⟨xs ++ before, after, by simp, by simp⟩

theorem tokenAt_cons {node : Node} {nodes : List Node} {offset : Nat} {t : Token} :
    TokenAt (node :: nodes) offset t ↔
      (node = .token t ∧ offset = 0) ∨ ∃ k, offset = node.length + k ∧ TokenAt nodes k t := by
  constructor
  · rintro ⟨before, after, heq, rfl⟩
    cases before with
    | nil =>
      simp only [List.nil_append, List.cons.injEq] at heq
      exact Or.inl ⟨heq.1, rfl⟩
    | cons first before =>
      simp only [List.cons_append, List.cons.injEq] at heq
      obtain ⟨rfl, rfl⟩ := heq
      exact Or.inr ⟨totalLength before, by simp, before, after, rfl, rfl⟩
  · rintro (⟨rfl, rfl⟩ | ⟨k, rfl, before, after, rfl, rfl⟩)
    · exact ⟨[], nodes, rfl, rfl⟩
    · exact ⟨node :: before, after, rfl, by simp⟩

theorem not_tokenAt_nil {offset : Nat} {t : Token} : ¬ TokenAt [] offset t := by
  rintro ⟨before, after, heq, -⟩
  simp at heq

/-- A token is no longer than the bytes behind its offset. -/
theorem TokenAt.le {nodes : List Node} {offset : Nat} {t : Token} (h : TokenAt nodes offset t) :
    offset + t.length ≤ totalLength nodes := by
  obtain ⟨before, after, rfl, rfl⟩ := h
  simp only [totalLength_append, totalLength_cons, Node.length_token]
  omega

@[simp] theorem totalLength_raw (cs : List Char) : totalLength (raw cs) = byteLength cs := by
  unfold raw
  split
  · rename_i hempty
    rw [List.isEmpty_iff.1 hempty]
    rfl
  · simp [utf8ByteSize_ofList]

/-- From `offset` on in a text, the nodes stand for `cs`. What `P` says holds of every token, the
    place where it is, and the text that it stands for. -/
inductive Covers (P : Nat → List Char → Token → Prop) : Nat → List Char → List Node → Prop where
  | nil {offset : Nat} : Covers P offset [] []
  | text {offset : Nat} {s : String} {cs : List Char} {nodes : List Node} :
      Covers P (offset + s.utf8ByteSize) cs nodes →
      Covers P offset (s.toList ++ cs) (.text s :: nodes)
  | token {offset : Nat} {t : Token} {matched cs : List Char} {nodes : List Node} :
      t.length = byteLength matched → P offset matched t →
      Covers P (offset + byteLength matched) cs nodes →
      Covers P offset (matched ++ cs) (.token t :: nodes)

namespace Covers

variable {P : Nat → List Char → Token → Prop} {offset : Nat} {cs ds : List Char}
  {xs ys : List Node}

theorem totalLength_eq (h : Covers P offset cs xs) : totalLength xs = byteLength cs := by
  induction h with
  | nil => rfl
  | text _ ih => simp [ih, byteLength_toList]
  | token hlen _ _ ih => simp [ih, hlen]

theorem append (hxs : Covers P offset cs xs) (hys : Covers P (offset + byteLength cs) ds ys) :
    Covers P offset (cs ++ ds) (xs ++ ys) := by
  induction hxs with
  | nil => exact hys
  | text _ ih =>
    rw [List.append_assoc, List.cons_append]
    refine text (ih ?_)
    rwa [Nat.add_assoc, ← byteLength_toList, ← byteLength_append]
  | token hlen hP _ ih =>
    rw [List.append_assoc, List.cons_append]
    refine token hlen hP (ih ?_)
    rwa [Nat.add_assoc, ← byteLength_append]

theorem exists_of_text {s : String} (h : Covers P offset cs (.text s :: xs)) :
    ∃ ds, cs = s.toList ++ ds ∧ Covers P (offset + s.utf8ByteSize) ds xs := by
  cases h with
  | text hrest => exact ⟨_, rfl, hrest⟩

/-- The text can be cut between any two nodes. -/
theorem exists_append (h : Covers P offset cs (xs ++ ys)) :
    ∃ us vs, cs = us ++ vs ∧ Covers P offset us xs ∧ Covers P (offset + byteLength us) vs ys := by
  induction xs generalizing offset cs with
  | nil => exact ⟨[], cs, rfl, nil, h⟩
  | cons node xs ih =>
    cases h with
    | text hrest =>
      obtain ⟨us, vs, rfl, hus, hvs⟩ := ih hrest
      refine ⟨_ ++ us, vs, (List.append_assoc ..).symm, text hus, ?_⟩
      rwa [byteLength_append, byteLength_toList, ← Nat.add_assoc]
    | token hlen hP hrest =>
      obtain ⟨us, vs, rfl, hus, hvs⟩ := ih hrest
      refine ⟨_ ++ us, vs, (List.append_assoc ..).symm, token hlen hP hus, ?_⟩
      rwa [byteLength_append, ← Nat.add_assoc]

theorem exists_cons {node : Node} (h : Covers P offset cs (node :: ys)) :
    ∃ us vs, cs = us ++ vs ∧ Covers P offset us [node] ∧
      Covers P (offset + byteLength us) vs ys :=
  exists_append h

/-- Moving forward over nodes leads to where the others start. -/
theorem forward_offset {here : Cursor} (h : Covers P here.offset here.after (xs ++ ys)) :
    (here.forward (totalLength xs)).offset = here.offset + totalLength xs := by
  obtain ⟨us, vs, hafter, hus, -⟩ := exists_append h
  rw [hus.totalLength_eq]
  exact (Cursor.forward_over hafter).2.2

theorem raw (cs : List Char) : Covers P offset cs (raw cs) := by
  unfold Tokenizer.raw
  split
  · rename_i hempty
    rw [List.isEmpty_iff.1 hempty]
    exact nil
  · have htext : Covers P offset ((String.ofList cs).toList ++ []) [.text (String.ofList cs)] :=
      text nil
    rwa [String.toList_ofList, List.append_nil] at htext

/-- What a token stands for. -/
theorem exists_of_tokenAt {k : Nat} {t : Token} (h : Covers P offset cs xs)
    (ht : TokenAt xs k t) :
    ∃ before matched after, cs = before ++ (matched ++ after) ∧ byteLength before = k ∧
      t.length = byteLength matched ∧ P (offset + k) matched t := by
  obtain ⟨before, after, rfl, rfl⟩ := ht
  obtain ⟨us, vs, rfl, hus, hvs⟩ := exists_append h
  cases hvs with
  | token hlen hP _ =>
    exact ⟨us, _, _, rfl, hus.totalLength_eq.symm, hlen, hus.totalLength_eq ▸ hP⟩

end Covers

end Tokenizer

end SyntaxHue
