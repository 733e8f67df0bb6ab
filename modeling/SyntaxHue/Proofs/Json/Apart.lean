import SyntaxHue.Proofs.Builtin
import SyntaxHue.Proofs.Json.Scan
import SyntaxHue.Proofs.Tokenizer.Spans

/-!
# Keys and strings told apart

The grammar of JSON begins with a pattern for keys, one for strings and one for comments, which
look at the whole input. The others look at the fragments that are left, and change no token. So
the tokens for keys and for strings are those that the first two patterns make one after the other:
the keys and the strings of the text, unless the text is misleading. In a misleading text the first
pattern makes a token that begins where a string closes, and that string never becomes a token.
-/

namespace SyntaxHue

deriving instance DecidableEq for CharProperty
deriving instance DecidableEq for CharClass
deriving instance DecidableEq for Regular
deriving instance DecidableEq for Part
deriving instance DecidableEq for Program
deriving instance DecidableEq for Matcher
deriving instance DecidableEq for Regex

namespace JsonText

open Cursor (Over)
open Tokenizer

/-! ## The rules -/

/-- The regular expression for keys. -/
def keyRegex : Regex :=
  ⟨.regular keyPart, 1⟩

/-- The regular expression for strings. -/
def stringRegex : Regex :=
  ⟨.backtracking stringProgram, 1⟩

/-- A pattern for literals, with a given expression. -/
@[mk_iff]
structure IsLiteral (kind : String) (regex : Regex) (c : Candidate) : Prop where
  kind_eq : c.kind = kind
  regex_eq : c.pattern.regex = regex
  lookbehind : c.pattern.lookbehind = true
  mode : c.pattern.mode = .input
  inside : c.pattern.inside = none

/-- A pattern for the whole input that begins with a solidus. -/
@[mk_iff]
structure IsComment (c : Candidate) : Prop where
  tame : c.pattern.tame = true
  begins : c.pattern.begins '/' = true
  mode : c.pattern.mode = .input
  inside : c.pattern.inside = none

/-- A pattern for fragments that makes tokens of another kind. -/
@[mk_iff]
structure IsOther (c : Candidate) : Prop where
  mode : c.pattern.mode = .fragment
  ne_property : c.kind ≠ "property"
  ne_string : c.kind ≠ "string"

/-- The patterns of the grammar of JSON, as far as they matter for keys and strings. -/
inductive IsRules : List Candidate → Prop where
  | mk {key string comment : Candidate} {others : List Candidate} :
      IsLiteral "property" keyRegex key → IsLiteral "string" stringRegex string →
      IsComment comment → (∀ c ∈ others, IsOther c) →
      IsRules (key :: string :: comment :: others)

instance (kind : String) (regex : Regex) (c : Candidate) : Decidable (IsLiteral kind regex c) :=
  decidable_of_iff' _ (isLiteral_iff kind regex c)

instance (c : Candidate) : Decidable (IsComment c) :=
  decidable_of_iff' _ (isComment_iff c)

instance (c : Candidate) : Decidable (IsOther c) :=
  decidable_of_iff' _ (isOther_iff c)

instance : DecidablePred IsRules
  | key :: string :: comment :: others =>
    decidable_of_iff (IsLiteral "property" keyRegex key ∧
        IsLiteral "string" stringRegex string ∧ IsComment comment ∧ ∀ c ∈ others, IsOther c)
      ⟨fun ⟨hkey, hstring, hcomment, hothers⟩ => .mk hkey hstring hcomment hothers,
        fun | .mk hkey hstring hcomment hothers => ⟨hkey, hstring, hcomment, hothers⟩⟩
  | [] | [_] | [_, _] => isFalse nofun

/-- Whether grammars have been registered, that of JSON among them. -/
def registersRules : Except GrammarError Store → Bool
  | .ok s => (s.get? "json").any fun id => IsRules (candidates (s.effectiveRules id)).toList
  | .error _ => false

theorem registersRules_builtins : registersRules Store.builtins = true := by
  decide +kernel

theorem exists_of_registersRules {r : Except GrammarError Store} (h : registersRules r = true) :
    ∃ s, r = .ok s ∧ ∃ grammar, s.get? "json" = some grammar ∧
      IsRules (candidates (s.effectiveRules grammar)).toList := by
  cases r with
  | error e => simp [registersRules] at h
  | ok s =>
    rw [registersRules, Option.any_eq_true] at h
    obtain ⟨grammar, hgrammar, hrules⟩ := h
    exact ⟨s, rfl, grammar, hgrammar, of_decide_eq_true hrules⟩

/-! ## Spans of lexemes -/

/-- The tokens of a kind are the selected lexemes. -/
structure Selects (kind : String) (select : Lexeme → Bool) (made : Lexeme → Option Token) :
    Prop where
  kind_iff : ∀ x t, made x = some t → (t.kind = kind ↔ select x = true)
  isSome : ∀ x, select x = true → (made x).isSome

theorem spansOf_nodesOf {kind : String} {select : Lexeme → Bool} {made : Lexeme → Option Token}
    (hmade : Literals made) (hselects : Selects kind select made) (offset : Nat)
    (ls : List Lexeme) : spansOf kind offset (nodesOf made ls) = spans select offset ls := by
  induction ls generalizing offset with
  | nil => rfl
  | cons x ls ih =>
    unfold spans
    cases hx : made x with
    | some t =>
      have hkind := hselects.kind_iff x t hx
      rw [nodesOf_token hx]
      by_cases hselect : select x = true
      · rw [spansOf_token (hkind.2 hselect), ih, hmade.length_eq x t hx, if_pos hselect]
      · rw [spansOf_token_of_ne (hkind.not.2 hselect), ih, hmade.length_eq x t hx,
          if_neg hselect]
    | none =>
      have hselect : ¬ select x = true := fun hselect => by
        simpa [hx] using hselects.isSome x hselect
      have hls := ih (offset + byteLength x.chars)
      rw [nodesOf, spansOf_append, spansOf_raw, totalLength_raw, List.nil_append] at hls
      rw [nodesOf, gapOf_text hx, restOf_text hx, spansOf_append, spansOf_raw, totalLength_raw,
        List.nil_append, byteLength_append, ← Nat.add_assoc, hls, if_neg hselect]

theorem mem_spans {select : Lexeme → Bool} {x : Lexeme} {l₁ l₂ : List Lexeme} {offset : Nat}
    (hx : select x = true) :
    (offset + byteLength (chars l₁), offset + byteLength (chars l₁) + byteLength x.chars) ∈
      spans select offset (l₁ ++ x :: l₂) := by
  induction l₁ generalizing offset with
  | nil => simp [spans, hx]
  | cons y l₁ ih =>
    have hmem : (offset + byteLength y.chars + byteLength (chars l₁),
        offset + byteLength y.chars + byteLength (chars l₁) + byteLength x.chars) ∈
          spans select (offset + byteLength y.chars) (l₁ ++ x :: l₂) := ih
    rw [List.cons_append, chars_cons, byteLength_append, ← Nat.add_assoc]
    unfold spans
    split
    · exact List.mem_cons_of_mem _ hmem
    · exact hmem

/-! ## Texts that are not misleading -/

section

variable {all ls l₁ l₂ : List Lexeme} {c key string comment : Candidate} {target : Lexeme → Bool}
  {made : Lexeme → Option Token} {l : Level} {f f₀ : Frame} {k i : Nat} {x : Lexeme} {t : Token}

/-- One more pattern has been applied to the whole text. -/
theorem Ahead.passes_succ (h : Ahead all l.bytes made 0 all f) (hpasses : l.passes i f₀ = .ok f)
    (hrule : l.rules[i]? = some c) (hseeks : Seeks all c target made) :
    ∃ g, l.passes (i + 1) f₀ = .ok g ∧ Ahead all l.bytes (withTokens c target made) 0 all g := by
  have hle := h.count_le
  have hfuel : byteLength (chars all) < l.bytes + 2 := by omega
  obtain ⟨g, hscan, hnodes, hreach, hcount⟩ :
      ∃ g, l.scan c (l.passes i) (l.bytes + 2) [] f = .ok g ∧
        g.nodes = nodesOf (withTokens c target made) all ∧ g.reach = none ∧
        g.count = 0 + (nodesOf (withTokens c target made) all).length := h.scan hseeks hfuel
  refine ⟨{ g with here := f.here }, ?_, h.suffix, h.text_eq, h.between, hnodes, hreach, hcount,
    hle⟩
  simp only [Level.passes_succ, hpasses, hrule, hscan]

theorem gapOf_none (ls : List Lexeme) : gapOf (fun _ => none) ls = chars ls := by
  induction ls with
  | nil => rfl
  | cons x ls ih => rw [gapOf_text rfl, ih, chars_cons]

theorem restOf_none (ls : List Lexeme) : restOf (fun _ => none) ls = [] := by
  induction ls with
  | nil => rfl
  | cons x ls ih => rw [restOf_text rfl, ih]

/-- Before any pattern is applied there are no tokens. -/
theorem nodesOf_none (ls : List Lexeme) : nodesOf (fun _ => none) ls = raw (chars ls) := by
  rw [nodesOf, gapOf_none, restOf_none, List.append_nil]

/-- The frame that a level starts with. -/
def openFrame (text : List Char) : Frame :=
  ⟨Level.opening text, Cursor.start text, 1, none⟩

theorem IsValue.ne_nil (h : IsValue ls) : ls ≠ [] := by
  cases h <;> exact List.cons_ne_nil _ _

theorem IsJson.ne_nil (h : IsJson ls) : chars ls ≠ [] := by
  have htold := h.told
  cases h with
  | @mk w v w' hw hv hw' =>
    obtain ⟨x, v, rfl⟩ := List.exists_cons_of_ne_nil hv.ne_nil
    have hx : x.chars ≠ [] := htold.right.ne_nil
    simp [hx]

theorem Ahead.start (h : IsJson all) (hbytes : l.bytes = byteLength (chars all)) :
    Ahead all l.bytes (fun _ => none) 0 all (openFrame (chars all)) where
  suffix := ⟨[], rfl⟩
  text_eq := Cursor.text_start _
  between := .start h
  nodes_eq := by
    rw [nodesOf_none, raw_of_ne_nil h.ne_nil]
    rfl
  reach_eq := rfl
  count_eq := by
    rw [nodesOf_none, raw_of_ne_nil h.ne_nil]
    rfl
  count_le := by omega

/-! ## The patterns, one after the other -/

theorem literals_none : Literals (fun _ => none) where
  body? := nofun
  length_eq := nofun

theorem suits_key (hkey : IsLiteral "property" keyRegex key) :
    Suits key Lexeme.isKey (fun _ => none) where
  mode := hkey.mode
  inside := hkey.inside
  literals := literals_none
  body? := aims_key.body?
  unmade := fun _ _ => rfl

theorem seeks_key (hkey : IsLiteral "property" keyRegex key)
    (hclear : misleading all = false) : Seeks all key Lexeme.isKey (fun _ => none) where
  toSuits := suits_key hkey
  finds := by
    rintro l ls here rfl - hbetween
    have hregex := hkey.regex_eq
    exact hbetween.finds_key (misleading_right hclear) (by rw [hregex, keyRegex]) hkey.lookbehind
      (by rw [hregex, keyRegex])

/-- The keys are tokens. -/
def keyTokens (key : Candidate) : Lexeme → Option Token :=
  withTokens key Lexeme.isKey fun _ => none

/-- The keys and the strings are tokens. -/
def literalTokens (key string : Candidate) : Lexeme → Option Token :=
  withTokens string Lexeme.isString (keyTokens key)

theorem literals_keyTokens : Literals (keyTokens key) :=
  literals_none.withTokens aims_key.body?

theorem literals_literalTokens : Literals (literalTokens key string) :=
  literals_keyTokens.withTokens aims_string.body?

theorem isSome_keyTokens (x : Lexeme) : (keyTokens key x).isSome = x.isKey := by
  cases x <;> rfl

theorem isSome_literalTokens (x : Lexeme) :
    (literalTokens key string x).isSome = x.body?.isSome := by
  cases x <;> rfl

theorem seeks_string (hstring : IsLiteral "string" stringRegex string)
    (hgives : ∀ here : Cursor, here.text = chars all → ¬ stringRegex.GivesUp here) :
    Seeks all string Lexeme.isString (keyTokens key) where
  mode := hstring.mode
  inside := hstring.inside
  literals := literals_keyTokens
  body? := aims_string.body?
  unmade := by
    intro x hx
    cases x <;> simp_all [Lexeme.isString, keyTokens, withTokens, Lexeme.isKey]
  finds := by
    rintro l ls here - htext hbetween
    have hregex := hstring.regex_eq
    have hgives' : ¬ string.pattern.regex.GivesUp here := by
      rw [hregex]
      exact hgives here htext
    simp only [isSome_keyTokens]
    exact hbetween.finds_string (by rw [hregex, stringRegex]) hstring.lookbehind
      (by rw [hregex, stringRegex]) hgives'

theorem seeks_comment (hcomment : IsComment comment) :
    Seeks all comment (fun _ => false) (literalTokens key string) where
  mode := hcomment.mode
  inside := hcomment.inside
  literals := literals_literalTokens
  body? := nofun
  unmade := nofun
  finds := by
    rintro l ls here - - hbetween
    simp only [isSome_literalTokens]
    exact hbetween.finds_slash hcomment.tame hcomment.begins

/-- In a text that is not misleading the first three patterns make tokens of the literals. -/
theorem exists_passes (hjson : IsJson all) (hclear : misleading all = false)
    (hgives : ∀ here : Cursor, here.text = chars all → ¬ stringRegex.GivesUp here)
    (hbytes : l.bytes = byteLength (chars all)) {others : List Candidate}
    (hrules : l.rules.toList = key :: string :: comment :: others)
    (hkey : IsLiteral "property" keyRegex key)
    (hstring : IsLiteral "string" stringRegex string) (hcomment : IsComment comment) :
    ∃ g, l.passes 3 (openFrame (chars all)) = .ok g ∧
      g.nodes = nodesOf (literalTokens key string) all := by
  have hrule : ∀ i : Nat, l.rules[i]? = (key :: string :: comment :: others)[i]? := by
    intro i
    rw [← hrules, Array.getElem?_toList]
  have hstart : Ahead all l.bytes (fun _ => none) 0 all (openFrame (chars all)) :=
    .start hjson hbytes
  obtain ⟨g₁, hpasses₁, h₁⟩ := hstart.passes_succ (i := 0) rfl (hrule 0) (seeks_key hkey hclear)
  obtain ⟨g₂, hpasses₂, h₂⟩ := h₁.passes_succ hpasses₁ (hrule 1) (seeks_string hstring hgives)
  obtain ⟨g₃, hpasses₃, h₃⟩ := h₂.passes_succ hpasses₂ (hrule 2) (seeks_comment hcomment)
  exact ⟨g₃, hpasses₃, h₃.nodes_eq⟩

theorem selects_key (hkey : key.kind = "property") (hstring : string.kind = "string") :
    Selects "property" Lexeme.isKey (literalTokens key string) where
  kind_iff := by
    intro x t hx
    cases x <;> cases hx
    · exact iff_of_true hkey rfl
    · exact iff_of_false (by simp [tokenOf, Token.kind, hstring]) (by simp [Lexeme.isKey])
  isSome := by
    intro x hx
    rw [isSome_literalTokens]
    exact aims_key.body? x hx

theorem selects_string (hkey : key.kind = "property") (hstring : string.kind = "string") :
    Selects "string" Lexeme.isString (literalTokens key string) where
  kind_iff := by
    intro x t hx
    cases x <;> cases hx
    · exact iff_of_false (by simp [tokenOf, Token.kind, hkey]) (by simp [Lexeme.isString])
    · exact iff_of_true hstring rfl
  isSome := by
    intro x hx
    rw [isSome_literalTokens]
    exact aims_string.body? x hx

/-- The tokens of a run are the keys and the strings of the text. -/
structure TellsApart (all : List Lexeme) (nodes : List Node) : Prop where
  property : spansOf "property" 0 nodes = spans Lexeme.isKey 0 all
  string : spansOf "string" 0 nodes = spans Lexeme.isString 0 all

theorem exists_passes_of_run {text : List Char} {nodes : List Node} (h : l.run text = .ok nodes) :
    ∃ g, l.passes l.rules.size (openFrame text) = .ok g ∧ g.nodes = nodes := by
  rw [Level.run_eq] at h
  generalize hlast : l.passes l.rules.size _ = r at h
  cases r with
  | error e => simp [Except.map] at h
  | ok g =>
    cases h
    exact ⟨g, hlast, rfl⟩

theorem tellsApart_of_run (hjson : IsJson all) (hclear : misleading all = false)
    (hgives : ∀ here : Cursor, here.text = chars all → ¬ stringRegex.GivesUp here)
    (hbytes : l.bytes = byteLength (chars all)) (hrules : IsRules l.rules.toList)
    {nodes : List Node} (h : l.run (chars all) = .ok nodes) : TellsApart all nodes := by
  generalize hlist : l.rules.toList = list at hrules
  cases hrules with
  | @mk key string comment others hkey hstring hcomment hothers =>
    obtain ⟨mid, hmid, hnodes⟩ :=
      exists_passes hjson hclear hgives hbytes hlist hkey hstring hcomment
    have hsize : 3 ≤ l.rules.size := by
      rw [← Array.length_toList, hlist]
      simp
    have hrest : ∀ k c, 3 ≤ k → l.rules[k]? = some c → IsOther c := by
      intro k c hk hc
      obtain ⟨k, rfl⟩ := Nat.exists_eq_add_of_le hk
      rw [← Array.getElem?_toList, hlist, Nat.add_comm] at hc
      exact hothers c (List.mem_of_getElem? hc)
    obtain ⟨g, hlast, rfl⟩ := exists_passes_of_run h
    have hat : l.At (chars all) [] (openFrame (chars all)) := Level.At.opening l (chars all)
    have hkept : ∀ kind, (∀ c, IsOther c → c.kind ≠ kind) →
        spansOf kind 0 g.nodes = spansOf kind 0 (nodesOf (literalTokens key string) all) := by
      intro kind hkind
      rw [← hnodes]
      refine Level.spansOf_passes hat ?_ hmid hsize hlast
      intro k c hk hc
      exact ⟨(hrest k c hk hc).mode, hkind c (hrest k c hk hc)⟩
    refine ⟨?_, ?_⟩
    · rw [hkept _ fun c hc => hc.ne_property, spansOf_nodesOf literals_literalTokens
        (selects_key hkey.kind_eq hstring.kind_eq)]
    · rw [hkept _ fun c hc => hc.ne_string, spansOf_nodesOf literals_literalTokens
        (selects_string hkey.kind_eq hstring.kind_eq)]

/-! ## Misleading texts -/

theorem Advance.length_eq {again : Frame → Except Fault Frame} {ms : List Lexeme} {g : Frame}
    {nodes : List Node} (h : Advance all l c again target made k ls ms f g nodes)
    (hsuits : Suits c target made) :
    byteLength (chars ls) = totalLength nodes + byteLength (chars ms) := by
  have hliterals := hsuits.literals.withTokens (c := c) hsuits.body?
  have hlength := congrArg totalLength h.nodes_eq
  rwa [totalLength_append, totalLength_nodesOf hliterals, totalLength_nodesOf hliterals] at hlength

/-- A match in raw text makes a token of what it finds. -/
theorem Ahead.step_raw (h : Ahead all l.bytes (fun _ => none) k ls f)
    (hsuits : Suits c target (fun _ => none)) {m : PatternMatch} {u : List Char}
    (hfind : c.pattern.find f.here = .ok (some m)) (hover : Over u f.here m.span.start)
    {place : Cursor} (hliteral : Literal place m.span.start m.span.stop) :
    ∃ hit t, l.step c f = .ok (.make hit (.token t)) ∧ hit.passed = [] ∧ hit.covered = 1 ∧
      hit.before = u ∧ 2 ≤ t.length := by
  obtain ⟨b, -, hbody⟩ := hliteral.body
  have htwo := hliteral.two_le
  have hoffset := hover.offset_eq
  have hls : chars ls = u ++ (('"' :: b ++ ['"']) ++ m.span.stop.after) := by
    rw [← h.between.after_eq, hover.after_eq, hbody.after_eq]
  have hne : chars ls ≠ [] := by simp [hls]
  have hnodes : f.nodes = [.text (String.ofList (chars ls))] := by
    rw [h.nodes_eq, nodesOf_none, raw_of_ne_nil hne]
  have hstop : m.span.stop.offset ≤
      f.here.offset + (String.ofList (chars ls)).utf8ByteSize := by
    have hstop := hbody.offset_eq
    rw [utf8ByteSize_ofList, hls, byteLength_append, byteLength_append]
    omega
  have hafter : m.span.start.after ≠ [] := by simp [hbody.after_eq]
  have hlook : lookInInput c.pattern ([] ++ .text (String.ofList (chars ls)) :: []) f.here =
      .ok (.hit _) :=
    lookInInput_hit hfind (Over.nil f.here) rfl (by omega) (by omega) hstop hafter (.inl rfl)
  rw [List.nil_append, Over.chars_eq hover] at hlook
  generalize hhit : Hit.mk _ _ _ _ _ _ _ _ _ = hit at hlook
  have hstep : l.step c f = .ok (.make hit (.token ⟨c.kind,
      .text (String.ofList hit.matched), c.pattern.aliases, byteLength hit.matched⟩)) := by
    rw [step_text (h.go literals_none) hsuits.mode hnodes, hnodes, hlook]
    simp only [Level.token_eq, hsuits.inside]
  subst hhit
  refine ⟨_, _, hstep, rfl, rfl, rfl, ?_⟩
  have hchars : m.span.chars = '"' :: b ++ ['"'] := Over.chars_eq hbody
  have hpos := Char.utf8Size_pos '"'
  simp only [Token.length, hchars, byteLength_append, byteLength_cons, byteLength_nil]
  omega

/-- The last byte of a string and the one behind it are covered by one token. -/
def Overrun (all : List Lexeme) (nodes : List Node) : Prop :=
  ∃ l₁ b l₂, all = l₁ ++ .string b :: l₂ ∧
    Covered (byteLength (chars l₁ ++ '"' :: b)) (byteLength (chars l₁ ++ '"' :: b) + 2) nodes

/-- Such a token makes that the string is none. -/
theorem Overrun.not_tellsApart {nodes : List Node} (h : Overrun all nodes) :
    ¬ TellsApart all nodes := by
  obtain ⟨l₁, b, l₂, rfl, hcovered⟩ := h
  intro htells
  have hmem : (0 + byteLength (chars l₁),
      0 + byteLength (chars l₁) + byteLength (Lexeme.string b).chars) ∈
        spans Lexeme.isString 0 (l₁ ++ .string b :: l₂) := mem_spans rfl
  rw [← htells.string, Lexeme.chars] at hmem
  have hquote : Char.utf8Size '"' = 1 := rfl
  refine hcovered.not_mem_spansOf ?_ ?_ ?_ hmem
  all_goals
    simp only [byteLength_append, byteLength_cons, byteLength_nil]
    omega

section

variable {again : Frame → Except Fault Frame} {n : Nat} {done : List Node} {g : Frame}

/-- A match that starts where a string closes makes a token that goes on behind the string. -/
theorem Ahead.overrun_of_closing {m : PatternMatch} {place : Cursor} {b : List Char}
    (h : Ahead all l.bytes (fun _ => none) k ls f) (hsuits : Suits c target (fun _ => none))
    (hls : ls = l₁ ++ .string b :: l₂) (hfind : c.pattern.find f.here = .ok (some m))
    (hliteral : Literal place m.span.start m.span.stop)
    (hstart : Over (chars l₁ ++ '"' :: b) f.here m.span.start)
    (hdone : totalLength done.reverse + byteLength (chars ls) = byteLength (chars all))
    (hscan : l.scan c again (n + 1) done f = .ok g) : Overrun all g.nodes := by
  obtain ⟨hit, t, hstep, hpassed, hcovered, hbefore, htwo⟩ :=
    h.step_raw hsuits hfind hstart hliteral
  have hone : ¬ 1 < hit.covered := by simp [hcovered]
  rw [Level.scan_succ, hstep] at hscan
  simp only [if_neg hone] at hscan
  obtain ⟨ys, hys⟩ := Level.exists_of_scan hscan
  have htoken : TokenAt g.nodes
      (totalLength done.reverse + byteLength (chars l₁ ++ '"' :: b)) t := by
    refine ⟨done.reverse ++ raw (chars l₁ ++ '"' :: b), ys, ?_, by simp⟩
    rw [hys, hpassed, hbefore]
    simp
  obtain ⟨l', hall⟩ := h.suffix
  have hlength : byteLength (chars all) = byteLength (chars l') + byteLength (chars ls) := by
    rw [hall, chars_append, byteLength_append]
  refine ⟨l' ++ l₁, b, l₂, by simp [hall, hls], _, t, htoken, ?_, ?_⟩
  all_goals
    rw [chars_append, List.append_assoc, byteLength_append (chars l')]
    omega

/-- In a misleading text some token for a key starts where a string closes. -/
theorem Ahead.overrun_of_scan (h : Ahead all l.bytes (fun _ => none) k ls f)
    (hkey : IsLiteral "property" keyRegex key) (hmisleading : misleading ls = true)
    (hdone : totalLength done.reverse + byteLength (chars ls) = byteLength (chars all))
    (hn : byteLength (chars ls) < n) (hscan : l.scan key again n done f = .ok g) :
    Overrun all g.nodes := by
  have hsuits := suits_key hkey
  induction n generalizing k ls done f with
  | zero => omega
  | succ n ih =>
    have hfirst : FindsFirst ColonNext f.here (key.pattern.find f.here) :=
      findsFirst_key (by rw [hkey.regex_eq, keyRegex]) hkey.lookbehind
        (by rw [hkey.regex_eq, keyRegex]) f.here
    have hfinds := h.between.findsMisled hmisleading hfirst
    generalize hfind : key.pattern.find f.here = r at hfinds
    cases hfinds with
    | closing hls hliteral hstart =>
      exact h.overrun_of_closing hsuits hls hfind hliteral hstart hdone hscan
    | @key m l₁ l₂ x hls hbefore hx hstart hstop hrest =>
      subst hls
      have hchars : x.chars ≠ [] := h.between.told.right.ne_nil
      have hne : chars (l₁ ++ x :: l₂) ≠ [] := by simp [hchars]
      have hhead : ∃ s more, f.nodes = .text s :: more := by
        rw [h.nodes_eq, nodesOf_none, raw_of_ne_nil hne]
        exact ⟨_, _, rfl⟩
      obtain ⟨f', nodes, hadvance⟩ : ∃ f' nodes, Advance all l key again Lexeme.isKey
          (fun _ => none) k (l₁ ++ x :: l₂) l₂ f f' nodes :=
        h.advance_hit hsuits hfind hhead hbefore hx hstart hstop
      have hlength := hadvance.length_eq hsuits
      have hshorter := hadvance.shorter
      rw [hadvance.scan_eq] at hscan
      refine ih hadvance.ahead hrest ?_ (by omega) hscan
      rw [List.reverse_append, List.reverse_reverse, totalLength_append]
      omega

end

/-- The first pattern makes such a token, and the later ones do not undo it. -/
theorem not_tellsApart_of_run (hjson : IsJson all) (hmisleading : misleading all = true)
    (hbytes : l.bytes = byteLength (chars all)) (hrules : IsRules l.rules.toList)
    {nodes : List Node} (h : l.run (chars all) = .ok nodes) : ¬ TellsApart all nodes := by
  generalize hlist : l.rules.toList = list at hrules
  cases hrules with
  | @mk key string comment others hkey hstring hcomment hothers =>
    have hrule : l.rules[0]? = some key := by
      rw [← Array.getElem?_toList, hlist]
      rfl
    have hsize : 1 ≤ l.rules.size := by
      rw [← Array.length_toList, hlist]
      simp
    obtain ⟨g, hlast, rfl⟩ := exists_passes_of_run h
    obtain ⟨mid, hmid⟩ := Level.exists_passes_of_le hsize hlast
    have hoverrun : Overrun all mid.nodes := by
      have hfirst := hmid
      rw [Level.passes_succ] at hfirst
      simp only [Level.passes, hrule] at hfirst
      split at hfirst
      · simp at hfirst
      · rename_i mid' hscan
        cases hfirst
        have hstart : Ahead all l.bytes (fun _ => none) 0 all (openFrame (chars all)) :=
          .start hjson hbytes
        have hfuel : byteLength (chars all) < l.bytes + 2 := by omega
        have hoverrun : Overrun all mid'.nodes :=
          hstart.overrun_of_scan hkey hmisleading (Nat.zero_add _) hfuel hscan
        exact hoverrun
    obtain ⟨l₁, b, l₂, hall, hcovered⟩ := hoverrun
    have hlater := Level.covered_passes (Level.At.opening l _) hmid hcovered hsize hlast
    exact Overrun.not_tellsApart ⟨l₁, b, l₂, hall, hlater⟩

end

/-! ## The built-in grammar -/

/-- A run of the built-in grammar of JSON. -/
theorem exists_run {s : Store} (h : Store.builtins = .ok s) (text : List Char) :
    ∃ grammar nodes, IsRules (s.levelOf grammar text).rules.toList ∧
      (s.levelOf grammar text).run text = .ok nodes ∧
      s.tokenizeLanguage (String.ofList text) "json" = .ok (some nodes) := by
  have hregisters := registersRules_builtins
  rw [h] at hregisters
  obtain ⟨_, heq, grammar, hgrammar, hrules⟩ := exists_of_registersRules hregisters
  cases heq
  have hwell : s.wellBuilt '\x60' '$' = true := by
    have hall := Store.allWellBuilt_builtins
    rwa [h] at hall
  obtain ⟨nodes, hnodes⟩ := Store.exists_tokenize (Store.tame_of_wellBuilt hwell)
    (Store.wellFounded_handsOn hwell) (String.ofList text) grammar
  refine ⟨grammar, nodes, hrules, ?_, ?_⟩
  · rw [← Store.tokenize_eq_run, hnodes]
  · rw [Store.tokenizeLanguage, hgrammar]
    simp only [hnodes]
    rfl

/-- The built-in grammar of JSON does not tell the keys and the strings of a misleading text apart.
    It does so for all other texts, as long as no search for strings gives up. -/
theorem tellsApart_unless_misleading {s : Store} {ls : List Lexeme} (hs : Store.builtins = .ok s)
    (hjson : IsJson ls) :
    ∃ nodes, s.tokenizeLanguage (String.ofList (chars ls)) "json" = .ok (some nodes) ∧
      (misleading ls = true → ¬ TellsApart ls nodes) ∧
      (misleading ls = false →
        (∀ here : Cursor, here.text = chars ls → ¬ stringRegex.GivesUp here) →
          TellsApart ls nodes) := by
  obtain ⟨grammar, nodes, hrules, hrun, htokenize⟩ := exists_run hs (chars ls)
  refine ⟨nodes, htokenize, ?_, ?_⟩
  · intro hmisleading
    exact not_tellsApart_of_run hjson hmisleading rfl hrules hrun
  · intro hclear hgives
    exact tellsApart_of_run hjson hclear hgives rfl hrules hrun

/-- Whether the search for strings comes to an end from every place of a text. -/
def settles (text : List Char) : Bool :=
  (List.range (byteLength text + 1)).all fun k =>
    let here := (Cursor.start text).forward k
    (Backtracking.search ⟨here.offset, byteLength here.text⟩
      (Backtracking.steps Regex.failureLimit stringProgram.size) stringProgram Regex.failureLimit
      here.after here).outcome?.isSome

theorem not_givesUp_of_settles {text : List Char} (h : settles text = true) {here : Cursor}
    (htext : here.text = text) : ¬ stringRegex.GivesUp here := by
  rintro ⟨e, hmatcher, hsearch⟩
  cases hmatcher
  have hstart : here.text = (Cursor.start text).text := htext.trans (Cursor.text_start _).symm
  obtain ⟨u, hu⟩ := Cursor.exists_over hstart (Nat.zero_le _)
  have hle : byteLength u < byteLength text + 1 := by
    have hafter : text = u ++ here.after := hu.after_eq
    rw [hafter, byteLength_append]
    omega
  rw [settles, List.all_eq_true] at h
  have hsome := h (byteLength u) (List.mem_range.2 hle)
  dsimp only at hsome
  rw [Over.forward_eq hu, hsearch] at hsome
  simp [Backtracking.Result.outcome?] at hsome

/-- An object with one member. -/
def oneMember : List Lexeme :=
  [.mark '\x7b', .key ['a'], .mark ':', .string ['b'], .mark '\x7d']

/-- A body of one character. -/
theorem isBody_singleton {c : Char} (hc : ' ' ≤ c ∧ c ≠ '"' ∧ c ≠ '\\') : IsBody [c] :=
  .plain hc.1 hc.2.1 hc.2.2 .nil

/-- A value is an element without blanks around it. -/
theorem IsValue.isElement {v : List Lexeme} (h : IsValue v) : IsElement v := by
  have helement : IsElement ([] ++ (v ++ [])) :=
    .mk (List.forall_mem_nil _) h (List.forall_mem_nil _)
  rwa [List.nil_append, List.append_nil] at helement

theorem isJson_oneMember : IsJson oneMember := by
  have hvalue : IsValue [.string ['b']] := .string (isBody_singleton (by decide))
  have hmember : IsMember ([] ++ (.key ['a'] :: ([] ++ (.mark ':' :: [.string ['b']])))) :=
    .mk (List.forall_mem_nil _) (isBody_singleton (by decide)) (List.forall_mem_nil _)
      hvalue.isElement
  exact (IsValue.object (.one hmember)).isElement

theorem settles_oneMember : settles (chars oneMember) = true := by
  decide +kernel

theorem tellsApart_oneMember : ∃ s nodes, Store.builtins = .ok s ∧ IsJson oneMember ∧
    s.tokenizeLanguage (String.ofList (chars oneMember)) "json" = .ok (some nodes) ∧
    (∀ here : Cursor, here.text = chars oneMember → ¬ stringRegex.GivesUp here) ∧
    TellsApart oneMember nodes := by
  obtain ⟨s, hs, -⟩ := exists_of_registersRules registersRules_builtins
  have hgives : ∀ here : Cursor, here.text = chars oneMember → ¬ stringRegex.GivesUp here :=
    fun here htext => not_givesUp_of_settles settles_oneMember htext
  obtain ⟨nodes, htokenize, -, htells⟩ := tellsApart_unless_misleading hs isJson_oneMember
  exact ⟨s, nodes, hs, isJson_oneMember, htokenize, hgives, htells rfl hgives⟩

/-- An array with two strings, the second of which is a colon. -/
def colonString : List Lexeme :=
  [.mark '[', .string ['a'], .mark ',', .string [':'], .mark ']']

theorem isJson_colonString : IsJson colonString := by
  have hfirst : IsValue [.string ['a']] := .string (isBody_singleton (by decide))
  have hsecond : IsValue [.string [':']] := .string (isBody_singleton (by decide))
  exact (IsValue.array (.more hfirst.isElement (.one hsecond.isElement))).isElement

/-- The strings of this text are not tokens. -/
theorem not_tellsApart_colonString : ∃ s nodes, Store.builtins = .ok s ∧ IsJson colonString ∧
    s.tokenizeLanguage (String.ofList (chars colonString)) "json" = .ok (some nodes) ∧
    ¬ TellsApart colonString nodes := by
  obtain ⟨s, hs, -⟩ := exists_of_registersRules registersRules_builtins
  obtain ⟨grammar, nodes, hrules, hrun, htokenize⟩ := exists_run hs (chars colonString)
  exact ⟨s, nodes, hs, isJson_colonString, htokenize,
    not_tellsApart_of_run isJson_colonString rfl rfl hrules hrun⟩

end JsonText

end SyntaxHue
