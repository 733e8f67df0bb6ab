import SyntaxHue.Proofs.Hooks
import SyntaxHue.Proofs.Markup
import Mathlib.Data.List.Induction

/-!
# Wrapping tokens

When a token tree is rendered, its tokens go through the callbacks under `wrap` one by one, each
after all tokens in it. A callback may change all that becomes of its token; what it sees of another
token is that token's own data around what the callbacks have left of the tokens in it. This leaves
no choice: there is one way only in which the tokens of a tree go through the callbacks, and
rendering is it.
-/

namespace SyntaxHue

mutual

/-- The tokens of a node, each after all tokens in it. -/
def Node.tokens : Node → List Token
  | .text _ => []
  | .token t => t.tokens

/-- The tokens in a token, then the token itself. -/
def Token.tokens : Token → List Token
  | .mk kind content aliases length => content.tokens ++ [.mk kind content aliases length]

/-- The tokens in what a token holds. -/
def Content.tokens : Content → List Token
  | .text _ => []
  | .nested nodes => tokensAll nodes

/-- The tokens of a token tree, each after all tokens in it, siblings from left to right. -/
def tokensAll : List Node → List Token
  | [] => []
  | node :: nodes => node.tokens ++ tokensAll nodes

end

/-- A token going through the callbacks. -/
@[ext] structure Wrapping (σ : Type) where
  token : Token
  /-- What the first callback sees. -/
  seen : WrapEnv
  before : σ
  /-- What the last callback leaves. -/
  left : WrapEnv
  after : σ

/-- The calls when a token goes through callbacks. -/
def Wrapping.calls {σ : Type} (hooks : List (String × Hook WrapEnv σ)) (w : Wrapping σ) :
    List (Call WrapEnv) :=
  HookRegistry.calls hooks "wrap" w.seen w.before

namespace Markup

variable {σ : Type}

/-- An attribute with the blank before it. -/
def attributeText (entry : String × String) : String :=
  " " ++ entry.1 ++ "=\"" ++ escapedValue entry.2 ++ "\""

/-- The text that an environment is emitted as. -/
def elementText (env : WrapEnv) : String :=
  "<" ++ env.tag ++ " class=\"" ++ String.intercalate " " env.classes ++ "\"" ++
    String.join (env.attributes.entries.map attributeText) ++ ">" ++ env.content ++
      "</" ++ env.tag ++ ">"

/-- The markup of nodes if `left` is what the callbacks leave of their tokens, among them those
    in other tokens. -/
def emit : List Node → List WrapEnv → String
  | [], _ => ""
  | .text s :: nodes, left => escapedText s ++ emit nodes left
  | .token (.mk _ content _ _) :: nodes, left =>
    match left.drop content.tokens.length with
    | [] => ""
    | env :: left => elementText env ++ emit nodes left

/-- The markup in a token if `left` is what the callbacks leave of the tokens in it. -/
def inside : Content → List WrapEnv → String
  | .text s, _ => escapedText s
  | .nested nodes, left => emit nodes left

/-- What the first callback sees of a token if `left` is what the callbacks have left of the tokens
    in it. -/
def firstSeen (config : RenderConfig) (language : String) (left : List WrapEnv) : Token → WrapEnv
  | .mk kind content aliases _ =>
    { kind := kind
      content := inside content left
      tag := config.tag
      classes := (if config.classPrefix = "" then [] else [config.classPrefix]) ++ kind :: aliases
      attributes := ⟨[]⟩
      language := language }

/-- The callbacks under `wrap` take a token from one state to the next, once and one token after
    the other. -/
inductive Leads (hooks : List (String × Hook WrapEnv σ)) : σ → List (Wrapping σ) → σ → Prop where
  | nil {st : σ} : Leads hooks st [] st
  | cons {w : Wrapping σ} {ws : List (Wrapping σ)} {st : σ}
      (hrun : HookRegistry.outcome hooks "wrap" w.seen w.before = (w.left, w.after))
      (hmore : Leads hooks w.after ws st) : Leads hooks w.before (w :: ws) st

/-- Each token is seen with what has been left of the tokens in it, which come right before it. -/
def BottomUp (config : RenderConfig) (language : String) (ws : List (Wrapping σ)) : Prop :=
  ∀ front w back, ws = front ++ w :: back → ∃ earlier within, front = earlier ++ within ∧
    (within ++ [w]).map (·.token) = w.token.tokens ∧
    w.seen = firstSeen config language (within.map (·.left)) w.token

/-- Tokens go through the callbacks, each of them once and with all tokens in it before it. -/
structure Wraps (config : RenderConfig) (hooks : List (String × Hook WrapEnv σ))
    (language : String) (tokens : List Token) (st : σ) (ws : List (Wrapping σ)) (last : σ) :
    Prop where
  tokens_eq : ws.map (·.token) = tokens
  leads : Leads hooks st ws last
  bottomUp : BottomUp config language ws

/-- A token tree is rendered as `markup`, by callbacks that take the state from `st` to `last`. -/
def Renders (config : RenderConfig) (hooks : List (String × Hook WrapEnv σ)) (language : String)
    (nodes : List Node) (st : σ) (markup : String) (last : σ) : Prop :=
  ∃ ws, Wraps config hooks language (tokensAll nodes) st ws last ∧
    markup = emit nodes (ws.map (·.left))

/-! ### What is seen and emitted -/

theorem attributes_eq (t : Table String) :
    attributes t = String.join (t.entries.map attributeText) := by
  rw [attributes, String.join, List.foldl_map]
  congr 1
  funext out entry
  simp only [attributeText, escapeAttribute_eq, String.append_assoc]

theorem element_eq (env : WrapEnv) : element env = elementText env := by
  rw [element, attributes_eq, elementText]

theorem wrapEnv_eq (config : RenderConfig) (language : String) (left : List WrapEnv)
    (kind : String) (content : Content) (aliases : List String) (length : Nat) :
    wrapEnv config language (.mk kind content aliases length) (inside content left) =
      firstSeen config language left (.mk kind content aliases length) := by
  simp only [wrapEnv, firstSeen, classes, Token.kind, Token.aliases, Table.empty,
    String.isEmpty_iff]

theorem emit_token {content : Content} {within : List WrapEnv}
    (h : within.length = content.tokens.length) (kind : String) (aliases : List String)
    (length : Nat) (nodes : List Node) (env : WrapEnv) (left : List WrapEnv) :
    emit (.token (.mk kind content aliases length) :: nodes) (within ++ env :: left) =
      elementText env ++ emit nodes left := by
  rw [emit, ← h, List.drop_left]

/-- What becomes of a node does not depend on what is left of the tokens behind it. -/
theorem emit_cons {node : Node} {own : List WrapEnv} (h : own.length = node.tokens.length)
    (nodes : List Node) (left : List WrapEnv) :
    emit (node :: nodes) (own ++ left) = emit [node] own ++ emit nodes left := by
  cases node with
  | text s =>
    obtain rfl := List.length_eq_zero_iff.1 h
    rw [List.nil_append, emit, emit, emit, String.append_empty]
  | token t =>
    obtain ⟨kind, content, aliases, length⟩ := t
    rw [Node.tokens, Token.tokens, List.length_append] at h
    obtain ⟨within, env, rfl⟩ : ∃ within env, own = within ++ [env] := by
      rcases List.eq_nil_or_concat' own with rfl | hown
      · exact absurd h.symm (Nat.succ_ne_zero _)
      · exact hown
    have hwithin : within.length = content.tokens.length := by
      rw [List.length_append] at h
      exact Nat.succ.inj h
    rw [emit_token hwithin, List.append_assoc, List.singleton_append, emit_token hwithin, emit,
      String.append_empty]

/-! ### Going through the callbacks -/

section

variable {hooks : List (String × Hook WrapEnv σ)}

theorem Leads.append {st mid last : σ} {ws more : List (Wrapping σ)} (h : Leads hooks st ws mid)
    (hmore : Leads hooks mid more last) : Leads hooks st (ws ++ more) last := by
  induction h with
  | nil => exact hmore
  | cons hrun _ ih => exact .cons hrun (ih hmore)

theorem Leads.append_inv {st last : σ} {ws more : List (Wrapping σ)}
    (h : Leads hooks st (ws ++ more) last) :
    ∃ mid, Leads hooks st ws mid ∧ Leads hooks mid more last := by
  induction ws generalizing st with
  | nil => exact ⟨st, .nil, h⟩
  | cons w ws ih =>
    cases h with
    | cons hrun hrest =>
      obtain ⟨mid, hws, hmore⟩ := ih hrest
      exact ⟨mid, .cons hrun hws, hmore⟩

theorem Leads.nil_inv {st last : σ} (h : Leads hooks st [] last) : st = last := by
  cases h
  rfl

theorem Leads.concat_inv {st last : σ} {ws : List (Wrapping σ)} {w : Wrapping σ}
    (h : Leads hooks st (ws ++ [w]) last) :
    Leads hooks st ws w.before ∧
      HookRegistry.outcome hooks "wrap" w.seen w.before = (w.left, w.after) ∧ w.after = last := by
  obtain ⟨mid, hws, hlast⟩ := h.append_inv
  cases hlast with
  | cons hrun hnil => exact ⟨hws, hrun, hnil.nil_inv⟩

end

section

variable {config : RenderConfig} {language : String}

theorem BottomUp.nil : BottomUp (σ := σ) config language [] :=
  fun front _ _ h => by simp at h

theorem BottomUp.append {ws more : List (Wrapping σ)} (h : BottomUp config language ws)
    (hmore : BottomUp config language more) : BottomUp config language (ws ++ more) := by
  intro front w back hsplit
  rcases List.append_eq_append_iff.1 hsplit with ⟨rest, rfl, hrest⟩ | ⟨rest, rfl, hrest⟩
  · -- the token is one of `more`
    obtain ⟨earlier, within, rfl, hwithin, hseen⟩ := hmore rest w back hrest
    exact ⟨ws ++ earlier, within, (List.append_assoc _ _ _).symm, hwithin, hseen⟩
  · cases rest with
    | nil =>
      obtain ⟨earlier, within, hfront, hwithin, hseen⟩ := hmore [] w back hrest.symm
      obtain ⟨rfl, rfl⟩ := List.append_eq_nil_iff.1 hfront.symm
      exact ⟨front, [], (List.append_nil _).symm, hwithin, hseen⟩
    | cons first rest =>
      obtain ⟨rfl, -⟩ := List.cons.inj hrest
      exact h front w rest rfl

theorem BottomUp.concat {within : List (Wrapping σ)} {w : Wrapping σ}
    (h : BottomUp config language within)
    (hwithin : (within ++ [w]).map (·.token) = w.token.tokens)
    (hseen : w.seen = firstSeen config language (within.map (·.left)) w.token) :
    BottomUp config language (within ++ [w]) := by
  intro front other back hsplit
  rcases List.eq_nil_or_concat' back with rfl | ⟨back, last, rfl⟩
  · obtain ⟨rfl, hlast⟩ := List.append_inj' hsplit rfl
    obtain ⟨rfl, -⟩ := List.cons.inj hlast
    exact ⟨[], within, rfl, hwithin, hseen⟩
  · rw [← List.cons_append, ← List.append_assoc] at hsplit
    obtain ⟨rfl, -⟩ := List.append_inj' hsplit rfl
    exact h front other back rfl

theorem BottomUp.of_append {ws more : List (Wrapping σ)}
    (h : BottomUp config language (ws ++ more)) : BottomUp config language ws := by
  intro front w back hsplit
  exact h front w (back ++ more) (by rw [hsplit, List.append_assoc, List.cons_append])

/-- What is seen of a token follows from what has gone through before it. -/
theorem BottomUp.seen_eq {front : List (Wrapping σ)} {w w' : Wrapping σ}
    (h : BottomUp config language (front ++ [w])) (h' : BottomUp config language (front ++ [w']))
    (htoken : w.token = w'.token) : w.seen = w'.seen := by
  obtain ⟨earlier, within, hfront, hwithin, hseen⟩ := h front w [] rfl
  obtain ⟨earlier', within', hfront', hwithin', hseen'⟩ := h' front w' [] rfl
  have hlength : within.length = within'.length := by
    have hall := congrArg List.length (hwithin.trans (htoken ▸ hwithin'.symm))
    simpa using hall
  obtain ⟨-, rfl⟩ := List.append_inj' (hfront.symm.trans hfront') hlength
  rw [hseen, hseen', htoken]

end

section

variable {config : RenderConfig} {hooks : List (String × Hook WrapEnv σ)} {language : String}

theorem Wraps.length_left {tokens : List Token} {st last : σ} {ws : List (Wrapping σ)}
    (h : Wraps config hooks language tokens st ws last) :
    (ws.map (·.left)).length = tokens.length := by
  rw [List.length_map, ← h.tokens_eq, List.length_map]

theorem Wraps.nil {st : σ} : Wraps config hooks language [] st [] st :=
  ⟨rfl, .nil, .nil⟩

theorem Wraps.append {tokens others : List Token} {st mid last : σ} {ws more : List (Wrapping σ)}
    (h : Wraps config hooks language tokens st ws mid)
    (hmore : Wraps config hooks language others mid more last) :
    Wraps config hooks language (tokens ++ others) st (ws ++ more) last where
  tokens_eq := by rw [List.map_append, h.tokens_eq, hmore.tokens_eq]
  leads := h.leads.append hmore.leads
  bottomUp := h.bottomUp.append hmore.bottomUp

/-- Tokens go through the callbacks in one way only. -/
theorem Wraps.unique {tokens : List Token} {st last last' : σ} {ws ws' : List (Wrapping σ)}
    (h : Wraps config hooks language tokens st ws last)
    (h' : Wraps config hooks language tokens st ws' last') : ws = ws' ∧ last = last' := by
  induction ws using List.reverseRecOn generalizing tokens last ws' last' with
  | nil =>
    obtain rfl := h.tokens_eq
    obtain rfl := List.map_eq_nil_iff.1 h'.tokens_eq
    cases h.leads
    cases h'.leads
    exact ⟨rfl, rfl⟩
  | append_singleton front w ih =>
    have htokens := h'.tokens_eq.trans h.tokens_eq.symm
    rcases List.eq_nil_or_concat' ws' with rfl | ⟨front', w', rfl⟩
    · simp at htokens
    · rw [List.map_append, List.map_append] at htokens
      obtain ⟨hfront, hlast⟩ := List.append_inj' htokens rfl
      obtain ⟨hleads, hrun, rfl⟩ := h.leads.concat_inv
      obtain ⟨hleads', hrun', rfl⟩ := h'.leads.concat_inv
      -- the tokens before the last one go through in the same way
      obtain ⟨rfl, hbefore⟩ := ih ⟨rfl, hleads, h.bottomUp.of_append⟩
        ⟨hfront, hleads', h'.bottomUp.of_append⟩
      have htoken : w.token = w'.token := (List.cons.inj hlast).1.symm
      have hseen := h.bottomUp.seen_eq h'.bottomUp htoken
      rw [hseen, hbefore] at hrun
      obtain ⟨hleft, hafter⟩ := Prod.mk.inj (hrun.symm.trans hrun')
      obtain rfl := Wrapping.ext htoken hseen hbefore hleft hafter
      exact ⟨rfl, rfl⟩

end

/-! ### Rendering -/

/-- `g` does what `hooks` do, on states that also hold the tokens that have gone through. -/
def Watches {τ : Type} (g : HookRegistry WrapEnv τ) (hooks : List (String × Hook WrapEnv σ))
    (embed : σ → List (Wrapping σ) → τ) : Prop :=
  ∀ w : Wrapping σ, HookRegistry.outcome hooks "wrap" w.seen w.before = (w.left, w.after) →
    ∀ earlier, g.run "wrap" w.seen (embed w.before earlier) =
      (w.left, embed w.after (earlier ++ [w]))

section

variable {config : RenderConfig} {hooks : List (String × Hook WrapEnv σ)} {language : String}

mutual

theorem exists_wraps_node (node : Node) (st : σ) : ∃ ws last,
    Wraps config hooks language node.tokens st ws last ∧
      ∀ {τ : Type} {g : HookRegistry WrapEnv τ} {embed : σ → List (Wrapping σ) → τ},
        Watches g hooks embed → ∀ out earlier,
          renderNode config g language out (embed st earlier) node =
            (out ++ emit [node] (ws.map (·.left)), embed last (earlier ++ ws)) := by
  match node with
  | .text s =>
    refine ⟨[], st, .nil, fun _ out earlier => ?_⟩
    rw [renderNode, escape_eq, List.append_nil, List.map_nil, emit, emit, String.append_empty]
  | .token (.mk kind content aliases length) =>
    obtain ⟨ws, mid, hws, hcontent⟩ := exists_wraps_content content st
    let t : Token := .mk kind content aliases length
    let seen := firstSeen config language (ws.map (·.left)) t
    obtain ⟨left, last, hrun⟩ :
        ∃ left last, HookRegistry.outcome hooks "wrap" seen mid = (left, last) := ⟨_, _, rfl⟩
    let w : Wrapping σ := ⟨t, seen, mid, left, last⟩
    have htokens : (ws ++ [w]).map (·.token) = t.tokens := by
      rw [List.map_append, hws.tokens_eq]
      rfl
    have hwraps : Wraps config hooks language t.tokens st (ws ++ [w]) last :=
      { tokens_eq := htokens
        leads := hws.leads.append (.cons (w := w) hrun .nil)
        bottomUp := hws.bottomUp.concat htokens rfl }
    refine ⟨ws ++ [w], last, hwraps, fun hwatch out earlier => ?_⟩
    have hown := hwatch w hrun (earlier ++ ws)
    rw [renderNode, hcontent hwatch]
    dsimp only [Stage.name]
    rw [wrapEnv_eq, hown, List.append_assoc, List.map_append, List.map_singleton,
      emit_token hws.length_left, emit, String.append_empty, element_eq]

theorem exists_wraps_content (content : Content) (st : σ) : ∃ ws last,
    Wraps config hooks language content.tokens st ws last ∧
      ∀ {τ : Type} {g : HookRegistry WrapEnv τ} {embed : σ → List (Wrapping σ) → τ},
        Watches g hooks embed → ∀ earlier,
          renderContent config g language (embed st earlier) content =
            (inside content (ws.map (·.left)), embed last (earlier ++ ws)) := by
  match content with
  | .text s =>
    refine ⟨[], st, .nil, fun _ earlier => ?_⟩
    rw [renderContent, escape_eq, List.append_nil, inside]
  | .nested nodes =>
    obtain ⟨ws, last, hws, hnodes⟩ := exists_wraps_nodes nodes st
    refine ⟨ws, last, hws, fun hwatch earlier => ?_⟩
    rw [renderContent, hnodes hwatch, String.empty_append, inside]

theorem exists_wraps_nodes (nodes : List Node) (st : σ) : ∃ ws last,
    Wraps config hooks language (tokensAll nodes) st ws last ∧
      ∀ {τ : Type} {g : HookRegistry WrapEnv τ} {embed : σ → List (Wrapping σ) → τ},
        Watches g hooks embed → ∀ out earlier,
          renderNodes config g language out (embed st earlier) nodes =
            (out ++ emit nodes (ws.map (·.left)), embed last (earlier ++ ws)) := by
  match nodes with
  | [] =>
    refine ⟨[], st, .nil, fun _ out earlier => ?_⟩
    rw [renderNodes, List.append_nil, emit, String.append_empty]
  | node :: nodes =>
    obtain ⟨ws, mid, hws, hnode⟩ := exists_wraps_node node st
    obtain ⟨more, last, hmore, hnodes⟩ := exists_wraps_nodes nodes mid
    refine ⟨ws ++ more, last, hws.append hmore, fun hwatch out earlier => ?_⟩
    rw [renderNodes, hnode hwatch]
    dsimp only
    rw [hnodes hwatch, List.map_append, emit_cons hws.length_left, String.append_assoc,
      List.append_assoc]

end

theorem watches_self : Watches (.ofList hooks) hooks fun st _ => st := by
  intro w hrun _
  rw [HookRegistry.run_ofList_eq_outcome]
  exact hrun

theorem watches_framed {τ : Type} (frame : τ) :
    Watches (.ofList (HookRegistry.framed hooks)) hooks fun st _ => (st, frame) := by
  intro w hrun _
  rw [HookRegistry.run_framed, hrun]

theorem watches_noting :
    Watches (.ofList (HookRegistry.noting hooks)) hooks
      fun st ws => (st, ws.flatMap (Wrapping.calls hooks)) := by
  intro w hrun earlier
  rw [HookRegistry.run_noting, hrun]
  dsimp only
  rw [List.flatMap_append, List.flatMap_singleton, Wrapping.calls]

variable {nodes : List Node} {st last : σ} {markup : String}

/-- Whoever does what the callbacks do renders a token tree as they do. -/
theorem Renders.exists_render (h : Renders config hooks language nodes st markup last) {τ : Type}
    {g : HookRegistry WrapEnv τ} {embed : σ → List (Wrapping σ) → τ}
    (hwatch : Watches g hooks embed) :
    ∃ ws, render config g language nodes (embed st []) = (markup, embed last ws) := by
  obtain ⟨ws, hws, rfl⟩ := h
  obtain ⟨ws', last', hws', hrender⟩ := exists_wraps_nodes nodes st
  obtain ⟨rfl, rfl⟩ := hws.unique hws'
  have hall := hrender hwatch "" []
  rw [String.empty_append] at hall
  exact ⟨ws, hall⟩

theorem exists_renders (nodes : List Node) (st : σ) :
    ∃ markup last, Renders config hooks language nodes st markup last := by
  obtain ⟨ws, last, hws, -⟩ := @exists_wraps_nodes σ config hooks language nodes st
  exact ⟨_, last, ws, hws, rfl⟩

/-- A part of the state that the callbacks leave alone stays as it is. -/
theorem Renders.render_framed (h : Renders config hooks language nodes st markup last) {τ : Type}
    (frame : τ) :
    render config (.ofList (HookRegistry.framed hooks)) language nodes (st, frame) =
      (markup, last, frame) := by
  obtain ⟨-, hrender⟩ := h.exists_render (watches_framed frame)
  exact hrender

theorem Renders.render_eq (h : Renders config hooks language nodes st markup last) :
    render config (.ofList hooks) language nodes st = (markup, last) := by
  obtain ⟨-, hrender⟩ := h.exists_render watches_self
  exact hrender

end

/-- Rendering takes each token through the callbacks once, after the tokens in it and after those
    before it, and never a text. The callbacks are called in the order in which they were added.
    They see a token around what has been left of the tokens in it, and of no others, and the
    markup is made of the texts and of what has been left of the outermost tokens. -/
theorem exists_wraps (config : RenderConfig) (hooks : List (String × Hook WrapEnv σ))
    (language : String) (nodes : List Node) (st : σ) :
    ∃ ws last,
      Wraps config hooks language (tokensAll nodes) st ws last ∧
      render config (.ofList hooks) language nodes st = (emit nodes (ws.map (·.left)), last) ∧
      render config (.ofList (HookRegistry.noting hooks)) language nodes (st, []) =
        (emit nodes (ws.map (·.left)), last, ws.flatMap (Wrapping.calls hooks)) := by
  obtain ⟨ws, last, hws, hrender⟩ := @exists_wraps_nodes σ config hooks language nodes st
  have hplain := hrender watches_self "" []
  have hnoting := hrender watches_noting "" []
  rw [String.empty_append] at hplain hnoting
  exact ⟨ws, last, hws, hplain, hnoting⟩

end Markup

end SyntaxHue
