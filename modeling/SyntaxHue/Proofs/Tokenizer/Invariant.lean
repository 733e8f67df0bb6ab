import SyntaxHue.Proofs.Tokenizer.Reach

/-!
# Invariants of streams

Every match of a run is one step of a scan, in a frame that stands for the text of the level. What
the raw text has and such matches keep is therefore had by every stream in the history of a level,
and by the nodes that its run returns. Token trees follow, since each level of a tree is what some
grammar makes of the text of that level alone.
-/

namespace SyntaxHue

open Tokenizer

namespace Tokenizer

variable {l : Level} {text : List Char}

/-- A match is one step of a scan that has come to its frame. -/
structure Making.Sound (l : Level) (text : List Char) (m : Making) : Prop where
  mem : m.candidate ∈ l.rules
  stands : l.At text m.left m.frame
  step_eq : l.step m.candidate m.frame = .ok (.make m.hit m.token)

namespace Making.Sound

variable {m : Making}

theorem token_eq (h : m.Sound l text) : l.token m.candidate m.hit.matched = .ok m.token := by
  have hstepped := h.stands.stepped m.candidate
  rw [h.step_eq] at hstepped
  cases hstepped with
  | make _ htoken => exact htoken

theorem exists_fits (h : m.Sound l text) :
    ∃ gone, m.hit.Fits m.candidate.pattern m.frame.nodes m.frame.here gone := by
  have hstepped := h.stands.stepped m.candidate
  rw [h.step_eq] at hstepped
  cases hstepped with
  | make hfits _ => exact ⟨_, hfits⟩

theorem old_eq (h : m.Sound l text) : m.change.old = m.left ++ m.frame.nodes := by
  obtain ⟨gone, hfits⟩ := h.exists_fits
  exact Level.At.ofHit_old hfits

/-- The fragment at which the match was looked for. -/
theorem exists_look (h : m.Sound l text) : ∃ s more, m.frame.nodes = .text s :: more ∧
    look m.candidate.pattern s more m.frame.here = .ok (.hit m.hit) :=
  (Level.of_step_make h.step_eq).2

/-- A level with more nodes than bytes makes no token. -/
theorem length_old_le (h : m.Sound l text) : m.change.old.length ≤ l.bytes := by
  have hstep := h.step_eq
  rw [h.old_eq, ← h.stands.count_eq]
  unfold Level.step at hstep
  split at hstep
  · simp at hstep
  · split at hstep
    · simp at hstep
    · rename_i hgo
      simp only [Bool.or_eq_true, decide_eq_true_eq, not_or] at hgo
      exact Nat.le_of_not_lt hgo.2

end Making.Sound

namespace Level

variable {c : Candidate} {left : List Node} {f : Frame} {again : Frame → Except Fault Frame}
  {changes : List Node → Frame → List Change} {makings : List Node → Frame → List Making}

theorem sound_scanMakings (hc : c ∈ l.rules)
    (hagain : ∀ left f, l.At text left f →
      l.Traced text (left ++ f.nodes) left [] (again f) (changes left f))
    (hhead : ∀ f g t more, again f = .ok g → f.nodes = .token t :: more →
      ∃ rest, g.nodes = .token t :: rest)
    (hsound : ∀ left f, l.At text left f → ∀ m ∈ makings left f, m.Sound l text)
    (n : Nat) (hat : l.At text left f) :
    ∀ m ∈ l.scanMakings c again makings n left f, m.Sound l text := by
  induction n generalizing left f with
  | zero => simp [scanMakings]
  | succ n ih =>
    have hstepped := hat.stepped c
    rw [scanMakings]
    cases hstep : l.step c f with
    | error e => simp
    | ok step =>
    rw [hstep] at hstepped
    cases hstepped with
    | finish => simp
    | pass _ _ hg => exact ih hg
    | @make h gone token hfits htoken =>
      intro m hm
      rcases List.mem_cons.1 hm with rfl | hm
      · exact ⟨hc, hat, hstep⟩
      · by_cases hcovered : 1 < h.covered
        · rw [if_pos hcovered] at hm
          have hsub := hat.again hc hfits htoken
          have htraced := hagain _ _ hsub
          rcases List.mem_append.1 hm with hm | hm
          · exact hsound _ _ hsub m hm
          · cases hr : again (f.again h token) with
            | error e => simp [hr] at hm
            | ok sub =>
              rw [hr] at hm htraced
              obtain ⟨hresume, -⟩ :=
                hat.resume hc hfits htoken (fun t more => hhead _ _ t more hr) htraced
              exact ih hresume m hm
        · rw [if_neg hcovered] at hm
          exact ih (hat.behind hc hfits htoken) m hm

theorem sound_passesMakings (i : Nat) (hat : l.At text left f) :
    ∀ m ∈ l.passesMakings i left f, m.Sound l text := by
  induction i generalizing left f with
  | zero => simp [passesMakings]
  | succ i ih =>
    intro m hm
    rw [passesMakings] at hm
    rcases List.mem_append.1 hm with hm | hm
    · exact ih hat m hm
    · have htraced := passes_traced i hat
      cases hmid : l.passes i f with
      | error e => simp [hmid] at hm
      | ok mid =>
        rw [hmid] at hm htraced
        obtain ⟨hatMid, -⟩ := htraced.at hat
        rw [← here_of_passes hmid] at hatMid
        cases hc : l.rules[i]? with
        | none => simp [hc] at hm
        | some c =>
          rw [hc] at hm
          exact sound_scanMakings (Array.mem_of_getElem? hc)
            (fun left f hat => passes_traced i hat) (fun f g t more => head_of_passes)
            (fun left f hat => ih hat) _ hatMid m hm

end Level

/-- What the first stream has and every change keeps is had by all streams. -/
theorem Linked.holds {I : List Node → Prop} {first last : List Node} {log : List Change}
    (h : Linked l text first log last) (hfirst : I first) (hkeep : ∀ d ∈ log, I d.old → I d.new) :
    ∀ nodes ∈ first :: log.map Change.new, I nodes := by
  induction h with
  | nil => simpa using hfirst
  | @cons d log last hd _ ih =>
    rw [List.forall_mem_cons] at hkeep
    have hnew := ih (hkeep.1 hfirst) hkeep.2
    rw [List.map_cons, List.forall_mem_cons]
    exact ⟨hfirst, hnew⟩

theorem Linked.holds_last {I : List Node → Prop} {first last : List Node} {log : List Change}
    (h : Linked l text first log last) (hfirst : I first) (hkeep : ∀ d ∈ log, I d.old → I d.new) :
    I last :=
  h.holds hfirst hkeep last (List.mem_of_getLast? h.getLast)

namespace Level

variable {I : List Node → Prop}

/-- What all matches of a level keep is kept by the changes that are made in a frame. -/
theorem keeps_of_makings {left : List Node} {f : Frame}
    (hkeep : ∀ m : Making, m.Sound l text → I m.change.old → I m.change.new) (i : Nat)
    (hat : l.At text left f) : ∀ d ∈ l.passesChanges i left f, I d.old → I d.new := by
  intro d hd
  rw [← map_change_passesMakings] at hd
  obtain ⟨m, hm, rfl⟩ := List.mem_map.1 hd
  exact hkeep m (sound_passesMakings i hat m hm)

/-- An invariant of the matches of a level holds in its whole history and of what its run
    returns. -/
theorem holds_in_history (hopening : I (opening text))
    (hkeep : ∀ m : Making, m.Sound l text → I m.change.old → I m.change.new) :
    (∀ nodes ∈ l.history text, I nodes) ∧ ∀ nodes, l.run text = .ok nodes → I nodes := by
  have hchanges := keeps_of_makings hkeep l.rules.size (At.opening l text)
  obtain ⟨last, hlinked⟩ := exists_linked l text
  have hall := hlinked.holds hopening hchanges
  refine ⟨hall, ?_⟩
  intro nodes hrun
  exact hall nodes (List.mem_of_getLast? (linked_of_run hrun).getLast)

end Level

end Tokenizer

/-- The nodes `children` are a level of the tree `nodes` over `text`, and `level` is their text. -/
inductive Sublevel : List Char → List Node → List Char → List Node → Prop where
  | whole {text : List Char} {nodes : List Node} : Sublevel text nodes text nodes
  | inside {text level : List Char} {nodes below children : List Node} {t : Token} :
      .token t ∈ nodes → t.content = .nested below →
      Sublevel t.flatten.toList below level children → Sublevel text nodes level children

namespace Tokenizer

variable {s : Store} {d : Nat} {grammar : GrammarId} {text level : List Char}
  {nodes children : List Node}

/-- A level of a tree is what a grammar makes of its text. -/
theorem exists_nested_of_sublevel (h : nested s d grammar text = .ok nodes)
    (hsub : Sublevel text nodes level children) : ∃ d g, nested s d g level = .ok children := by
  induction hsub generalizing d grammar with
  | whole => exact ⟨d, grammar, h⟩
  | inside ht hbelow _ ih =>
    cases d with
    | zero => simp [nested] at h
    | succ d =>
      obtain ⟨offset, matched, -, hmade⟩ := (covers_of_nested h).exists_of_mem ht
      have htext := hmade.flatten fun g u nodes hnodes => flattenAll_of_nested hnodes
      obtain ⟨rule, -, p, -, -, -, -, -, hcontent⟩ := hmade.exists_rule
      rw [htext, String.toList_ofList] at ih
      split at hcontent
      · simp [hbelow] at hcontent
      · obtain ⟨found, hfound, hcontent⟩ := hcontent
        rw [hbelow, Content.nested.injEq] at hcontent
        subst hcontent
        exact ih hfound

/-- A level of a tree is the run of a level over its text, which is as long as that level says. -/
theorem exists_run_of_sublevel (h : nested s d grammar text = .ok nodes)
    (hsub : Sublevel text nodes level children) :
    ∃ l : Level, l.bytes = byteLength level ∧ l.run level = .ok children := by
  obtain ⟨d, g, hlevel⟩ := exists_nested_of_sublevel h hsub
  cases d with
  | zero => simp [nested] at hlevel
  | succ d => exact ⟨levelAt s d g level, rfl, hlevel⟩

end Tokenizer

end SyntaxHue
