import Mathlib.Data.Fintype.Card
import Mathlib.Data.Fintype.Prod
import SyntaxHue.Proofs.Tokenizer.Run

/-!
# The depth of a tokenization

`nested` stops at a depth that it is given, and `Store.tokenize` gives it one that depends on the
length of the text alone. That depth is enough. A level only looks at what its inner grammars make
of texts that its patterns find, so more depth is needed only if it is needed for such a text; and
a grammar cannot be applied twice to the same text on the way down, if the way ever ends.
-/

namespace SyntaxHue

/-- A grammar that the store does not have applies no rules. -/
theorem Store.effectiveRules_eq_empty {s : Store} {grammar : GrammarId}
    (h : s.slots.size ≤ grammar.index) : s.effectiveRules grammar = .empty := by
  have hslot : s.grammar? grammar = none := by
    rw [grammar?, Array.getElem?_eq_none h]
  rw [effectiveRules, hslot]

namespace Tokenizer

/-- The result `x` is `y`, or it is none because the depth did not do. -/
def Below {α : Type} (x y : Except Fault α) : Prop :=
  x = .error .endless ∨ x = y

namespace Below

variable {α : Type} {x y z : Except Fault α}

theorem refl (x : Except Fault α) : Below x x :=
  Or.inr rfl

theorem trans (hxy : Below x y) (hyz : Below y z) : Below x z := by
  rcases hxy with hx | rfl
  · exact Or.inl hx
  · exact hyz

theorem antisymm (hxy : Below x y) (hyx : Below y x) : x = y := by
  rcases hxy with hx | hx
  · rcases hyx with hy | hy
    · rw [hx, hy]
    · exact hy.symm
  · exact hx

theorem eq (h : Below x y) (hx : x ≠ .error .endless) : y = x :=
  (h.resolve_left hx).symm

end Below

namespace Level

/-- The levels `l` and `k` have the same patterns, and what `k` makes of the texts that they find
    is above what `l` makes of them. -/
structure Under (text : List Char) (l k : Level) : Prop where
  bytes_eq : k.bytes = l.bytes
  rules_eq : k.rules = l.rules
  inner : ∀ c ∈ l.rules, ∀ g offset matched, c.pattern.inside = some g →
    c.pattern.FoundAt text offset matched → Below (l.inner g matched) (k.inner g matched)

variable {l k : Level} {text : List Char} {left : List Node} {c : Candidate} {f : Frame}

theorem Under.token (h : Under text l k) (hc : c ∈ l.rules) {offset : Nat} {matched : List Char}
    (hfound : c.pattern.FoundAt text offset matched) :
    Below (l.token c matched) (k.token c matched) := by
  rw [token_eq, token_eq]
  cases hinside : c.pattern.inside with
  | none => exact .refl _
  | some g =>
    dsimp only
    rcases h.inner c hc g offset matched hinside hfound with hinner | hinner
    · left
      rw [hinner]
    · right
      rw [hinner]

theorem Under.step (h : Under text l k) (hc : c ∈ l.rules) (hat : l.At text left f) :
    Below (l.step c f) (k.step c f) := by
  have hcovers := hat.covers_nodes
  unfold Level.step
  rw [h.bytes_eq]
  split
  · exact .refl _
  · rename_i node more hnodes
    rw [hnodes] at hcovers
    split
    · exact .refl _
    · cases node with
      | token t => exact .refl _
      | text s =>
        dsimp only
        cases hlook : look c.pattern s more f.here with
        | error e => exact .refl _
        | ok r =>
          cases r with
          | stop => exact .refl _
          | skip passed rest here => exact .refl _
          | hit hit =>
            obtain ⟨gone, hfits⟩ := fits_of_look hcovers hlook
            have hfound := hfits.found
            rw [hat.text_eq] at hfound
            dsimp only
            rcases h.token hc hfound with htoken | htoken
            · left
              rw [htoken]
            · right
              rw [htoken]

theorem Under.scan (h : Under text l k) (hc : c ∈ l.rules) {again : Frame → Except Fault Frame}
    {again' : Frame → Except Fault Frame} {changes : List Node → Frame → List Change}
    (hagain : ∀ left f, l.At text left f →
      l.Traced text (left ++ f.nodes) left [] (again f) (changes left f))
    (hhead : ∀ f g t more, again f = .ok g → f.nodes = .token t :: more →
      ∃ rest, g.nodes = .token t :: rest)
    (hbelow : ∀ left f, l.At text left f → Below (again f) (again' f))
    (n : Nat) (done : List Node) (hat : l.At text left f) :
    Below (l.scan c again n done f) (k.scan c again' n done f) := by
  induction n generalizing left done f with
  | zero => exact .refl _
  | succ n ih =>
    have hstepped := hat.stepped c
    rw [scan_succ, scan_succ]
    rcases h.step hc hat with hstep | hstep
    · left
      rw [hstep]
    · rw [← hstep]
      generalize l.step c f = r at hstepped ⊢
      cases hstepped with
      | finish => exact .refl _
      | search => exact .refl _
      | inner => exact .refl _
      | pass _ _ hg => exact ih _ hg
      | make hfits htoken =>
        dsimp only
        split
        · have hsub := hat.again hc hfits htoken
          have htraced := hagain _ _ hsub
          rcases hbelow _ _ hsub with hagain' | hagain'
          · left
            rw [hagain']
          · rw [← hagain']
            generalize hr : again _ = r at htraced ⊢
            cases r with
            | error e => exact .refl _
            | ok sub =>
              obtain ⟨hresume, -⟩ :=
                hat.resume hc hfits htoken (fun t more => hhead _ _ t more hr) htraced
              exact ih _ hresume
        · exact ih _ (hat.behind hc hfits htoken)

theorem Under.passes (h : Under text l k) (i : Nat) (hat : l.At text left f) :
    Below (l.passes i f) (k.passes i f) := by
  induction i generalizing left f with
  | zero => exact .refl _
  | succ i ih =>
    rw [passes_succ, passes_succ, h.rules_eq, h.bytes_eq]
    have htraced := passes_traced i hat
    rcases ih hat with hpasses | hpasses
    · left
      rw [hpasses]
    · rw [← hpasses]
      generalize hr : l.passes i f = r at htraced ⊢
      cases r with
      | error e => exact .refl _
      | ok mid =>
        dsimp only
        cases hc : l.rules[i]? with
        | none => exact .refl _
        | some c =>
          obtain ⟨hmid, -⟩ := htraced.at hat
          rw [← here_of_passes hr] at hmid
          have hscan := h.scan (Array.mem_of_getElem? hc) (fun left f hat => passes_traced i hat)
            (fun f g t more => head_of_passes) (fun left f hat => ih hat) (l.bytes + 2) [] hmid
          dsimp only at hscan ⊢
          rcases hscan with hscan | hscan
          · left
            rw [hscan]
          · right
            rw [hscan]

theorem Under.run (h : Under text l k) : Below (l.run text) (k.run text) := by
  rw [run_eq, run_eq, h.rules_eq]
  rcases h.passes l.rules.size (At.opening l text) with hpasses | hpasses
  · left
    rw [hpasses]
    rfl
  · right
    rw [hpasses]

end Level

variable {s : Store} {d e : Nat} {grammar : GrammarId} {text : List Char}

/-- The level that `nested` runs for a grammar and a text. -/
def levelAt (s : Store) (d : Nat) (grammar : GrammarId) (text : List Char) : Level :=
  ⟨byteLength text, candidates (s.effectiveRules grammar), nested s d⟩

theorem nested_succ : nested s (d + 1) grammar text = (levelAt s d grammar text).run text :=
  rfl

/-- Two levels of a grammar that differ in depth, where more depth changes nothing below. -/
theorem under_of_below (h : ∀ c ∈ (levelAt s d grammar text).rules, ∀ g offset matched,
    c.pattern.inside = some g → c.pattern.FoundAt text offset matched →
      Below (nested s d g matched) (nested s e g matched)) :
    Level.Under text (levelAt s d grammar text) (levelAt s e grammar text) :=
  ⟨rfl, rfl, h⟩

theorem nested_below_succ : Below (nested s d grammar text) (nested s (d + 1) grammar text) := by
  induction d generalizing grammar text with
  | zero => exact Or.inl rfl
  | succ d ih =>
    rw [nested_succ, nested_succ]
    exact (under_of_below fun _ _ _ _ _ _ _ => ih).run

/-- More depth does not change a result. -/
theorem nested_below (h : d ≤ e) : Below (nested s d grammar text) (nested s e grammar text) := by
  induction h with
  | refl => exact .refl _
  | step _ ih => exact ih.trans nested_below_succ

/-- The result at depth `d + 1` is there only because of the last level. -/
def Needs (s : Store) (d : Nat) (grammar : GrammarId) (text : List Char) : Prop :=
  nested s d grammar text ≠ nested s (d + 1) grammar text

theorem Needs.not_lt (hd : Needs s d grammar text) (he : Needs s e grammar text) : ¬ d < e := by
  intro hlt
  have hnone : nested s e grammar text = .error .endless :=
    (nested_below_succ).resolve_right he
  have hsome : nested s (d + 1) grammar text ≠ .error .endless := by
    intro hsucc
    have hbelow : Below (nested s d grammar text) (nested s (d + 1) grammar text) :=
      nested_below_succ
    rcases hbelow with h | h
    · exact hd (h.trans hsucc.symm)
    · exact hd h
  exact hsome ((nested_below hlt).eq hsome ▸ hnone)

/-- A level that needs its depth has a pattern that finds a text for which it is needed. -/
theorem Needs.exists_inner (h : Needs s (d + 1) grammar text) :
    ∃ g matched, matched <:+: text ∧ Needs s d g matched := by
  by_contra hnone
  push Not at hnone
  refine h (Below.antisymm ?_ ?_)
  all_goals
    rw [nested_succ, nested_succ]
    refine (under_of_below fun c _ g offset matched _ hfound => ?_).run
    have hsame := hnone g matched hfound.isInfix
    rw [Needs, not_not] at hsame
    rw [hsame]
    exact .refl _

/-- A grammar that the store does not have needs no depth but for its own level. -/
theorem Needs.index_lt (h : Needs s (d + 1) grammar text) : grammar.index < s.slots.size := by
  by_contra hlt
  refine h ?_
  rw [nested_succ, nested_succ, levelAt, levelAt, Store.effectiveRules_eq_empty (by omega)]
  rfl

/-- The texts for which depth is needed on the way down: one for each level, each a part of those
    above it. -/
theorem Needs.exists_chain (h : Needs s d grammar text) :
    ∃ chain : Nat → GrammarId × List Char, chain d = (grammar, text) ∧
      (∀ i ≤ d, Needs s i (chain i).1 (chain i).2) ∧
      ∀ i j, i ≤ j → j ≤ d → (chain i).2 <:+: (chain j).2 := by
  induction d generalizing grammar text with
  | zero =>
    refine ⟨fun _ => (grammar, text), rfl, ?_, ?_⟩
    · intro i hi
      obtain rfl : i = 0 := by omega
      exact h
    · intro i j _ _
      exact List.infix_refl _
  | succ d ih =>
    obtain ⟨g, matched, hpart, hneeds⟩ := h.exists_inner
    obtain ⟨chain, hlast, hchain, hparts⟩ := ih hneeds
    refine ⟨fun i => if i ≤ d then chain i else (grammar, text), by simp, ?_, ?_⟩
    · intro i hi
      by_cases hid : i ≤ d
      · simpa only [if_pos hid] using hchain i hid
      · obtain rfl : i = d + 1 := by omega
        simpa only [if_neg hid] using h
    · intro i j hij hj
      by_cases hjd : j ≤ d
      · simpa only [if_pos hjd, if_pos (hij.trans hjd)] using hparts i j hij hjd
      · by_cases hid : i ≤ d
        · simp only [if_pos hid, if_neg hjd]
          have hlow := hparts i d hid (Nat.le_refl d)
          rw [hlast] at hlow
          exact hlow.trans hpart
        · simp only [if_neg hid, if_neg hjd]
          exact List.infix_refl _

/-- On the way down no grammar is applied twice to the same text, so that depth is needed for no
    more levels than there are grammars and lengths of texts. -/
theorem Needs.le (h : Needs s d grammar text) :
    d ≤ (byteLength text + 1) * s.slots.size := by
  obtain ⟨chain, hlast, hchain, hparts⟩ := h.exists_chain
  have hlength : ∀ i ≤ d, byteLength (chain i).2 < byteLength text + 1 := by
    intro i hi
    have hpart := hparts i d hi (Nat.le_refl d)
    rw [hlast] at hpart
    exact Nat.lt_succ_of_le (byteLength_le_of_isInfix hpart)
  -- a level but the last is told by the length of its text and the number of its grammar
  let key : Fin d → Fin (byteLength text + 1) × Fin s.slots.size := fun i =>
    (⟨byteLength (chain (i + 1)).2, hlength _ i.isLt⟩,
      ⟨(chain (i + 1)).1.index, (hchain _ i.isLt).index_lt⟩)
  have hkey : Function.Injective key := by
    have hle : ∀ i j : Fin d, key i = key j → ¬ i < j := by
      intro i j hij hlt
      simp only [key, Prod.mk.injEq, Fin.mk.injEq] at hij
      have htext : (chain (i + 1)).2 = (chain (j + 1)).2 :=
        eq_of_isInfix_of_byteLength (hparts _ _ (by simpa using hlt.le) j.isLt) hij.1
      have hgrammar : (chain (i + 1)).1 = (chain (j + 1)).1 := by
        cases hi : (chain (i + 1)).1
        cases hj : (chain (j + 1)).1
        simpa [hi, hj] using hij.2
      have hi := hchain _ i.isLt
      rw [hgrammar, htext] at hi
      exact hi.not_lt (hchain _ j.isLt) (by simpa using hlt)
    intro i j hij
    rcases lt_trichotomy i j with hlt | heq | hlt
    · exact absurd hlt (hle i j hij)
    · exact heq
    · exact absurd hlt (hle j i hij.symm)
  have hcard := Fintype.card_le_of_injective key hkey
  simpa using hcard

/-- Beyond the levels that can be needed, more depth changes nothing. -/
theorem nested_add (h : (byteLength text + 1) * s.slots.size < d) (n : Nat) :
    nested s (d + n) grammar text = nested s d grammar text := by
  induction n with
  | zero => rfl
  | succ n ih =>
    have hneeds : ¬ Needs s (d + n) grammar text := by
      intro hneeds
      have hle := hneeds.le
      omega
    rw [Needs, not_not] at hneeds
    rw [← Nat.add_assoc, ← hneeds, ih]

theorem lt_depthFor {bytes : Nat} (hbytes : byteLength text ≤ bytes) :
    (byteLength text + 1) * s.slots.size < depthFor s bytes := by
  have hmul : (byteLength text + 1) * s.slots.size ≤ (bytes + 1) * (s.slots.size + 1) :=
    Nat.mul_le_mul (by omega) (by omega)
  rw [depthFor]
  omega

/-- What is found at any depth is found at the depth that `Store.tokenize` uses. -/
theorem nested_depthFor {bytes : Nat} (h : nested s d grammar text ≠ .error .endless)
    (hbytes : byteLength text ≤ bytes) :
    nested s (depthFor s bytes) grammar text = nested s d grammar text := by
  rw [← nested_add (lt_depthFor hbytes) d, (nested_below (by omega)).eq h]

/-- The levels below one with the depth of `Store.tokenize` have the depth that it gives them. -/
theorem nested_of_isInfix {matched : List Char} (hpart : matched <:+: text) :
    nested s ((byteLength text + 1) * (s.slots.size + 1)) grammar matched =
      nested s (depthFor s (byteLength matched)) grammar matched := by
  have hle := byteLength_le_of_isInfix hpart
  have hlow : (byteLength matched + 1) * s.slots.size < (byteLength text + 1) * (s.slots.size + 1) :=
    Nat.mul_lt_mul_of_le_of_lt (by omega) (by omega) (by omega)
  rw [← nested_add hlow (depthFor s (byteLength matched)), Nat.add_comm,
    nested_add (lt_depthFor (Nat.le_refl _))]

end Tokenizer

namespace Store

/-- A tokenization that ends at any depth is what `tokenize` returns. -/
theorem tokenize_eq_of_nested {s : Store} {d : Nat} {grammar : GrammarId} {text : List Char}
    {nodes : List Node} (h : Tokenizer.nested s d grammar text = .ok nodes) :
    s.tokenize (String.ofList text) grammar = .ok nodes := by
  rw [tokenize, String.toList_ofList, ← h]
  exact Tokenizer.nested_depthFor (by simp [h]) (by rw [utf8ByteSize_ofList])

end Store

end SyntaxHue
