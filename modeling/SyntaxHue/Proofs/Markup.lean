import SyntaxHue.Markup.Render
import Mathlib.Data.List.Basic

/-!
# The text of markup

To escape a text is to replace three characters in it, one after the other. A tag goes from a `<` to
the next `>`. Dropping all tags from the markup of a token tree leaves the text of the tree as it is
escaped, if no name in a tag ends it early. The escaped text can be taken back but for no-break
spaces, which are plain ones afterwards.
-/

namespace SyntaxHue

namespace Markup

/-! ### Replacing -/

/-- Replaces `old` by `new`, from left to right. The next `skip` characters have been replaced. -/
def replaceFrom (old new : List Char) : Nat → List Char → List Char
  | _, [] => []
  | skip + 1, _ :: cs => replaceFrom old new skip cs
  | 0, c :: cs =>
    if old.isPrefixOf (c :: cs) then new ++ replaceFrom old new (old.length - 1) cs
    else c :: replaceFrom old new 0 cs

/-- Replaces `old`, which is not empty, by `new` wherever it is. -/
def replace (old new : String) (s : String) : String :=
  String.ofList (replaceFrom old.toList new.toList 0 s.toList)

theorem replaceFrom_cons_of_ne {c d : Char} (h : d ≠ c) (old new cs : List Char) :
    replaceFrom (c :: old) new 0 (d :: cs) = d :: replaceFrom (c :: old) new 0 cs := by
  simp [replaceFrom, Ne.symm h]

/-- To replace a single character, each character is looked at alone. -/
theorem replaceFrom_singleton (c : Char) (new cs : List Char) :
    replaceFrom [c] new 0 cs = cs.flatMap fun d => if d = c then new else [d] := by
  induction cs with
  | nil => rfl
  | cons d cs ih =>
    rw [List.flatMap_cons]
    by_cases h : d = c
    · rw [if_pos h, ← ih, h]
      simp [replaceFrom]
    · rw [if_neg h, replaceFrom_cons_of_ne h, ih, List.singleton_append]

/-- Text as it stands between tags: with entities for `&` and `<`, and with plain spaces. -/
def escapedText (s : String) : String :=
  replace "\u00A0" " " (replace "<" "&lt;" (replace "&" "&amp;" s))

/-- Text as it stands in an attribute between double quotes. -/
def escapedValue (s : String) : String :=
  replace "\"" "&quot;" s

theorem escape_eq (s : String) : escape s = escapedText s := by
  -- no replacement touches what the one before it has put in
  have hchar : ∀ c : Char, escapeChar c =
      ((if c = '&' then "&amp;".toList else [c]).flatMap fun d =>
        if d = '<' then "&lt;".toList else [d]).flatMap fun d =>
          if d = '\u00A0' then " ".toList else [d] := by
    intro c
    unfold escapeChar
    split <;> simp_all
  simp only [escapedText, replace, String.toList_ofList]
  rw [escape]
  refine congrArg String.ofList ?_
  have hlt : "<".toList = ['<'] := rfl
  have hamp : "&".toList = ['&'] := rfl
  have hspace : "\u00A0".toList = ['\u00A0'] := rfl
  rw [hlt, hamp, hspace, replaceFrom_singleton, replaceFrom_singleton, replaceFrom_singleton,
    List.flatMap_assoc, List.flatMap_assoc]
  exact List.flatMap_congr fun c _ => by rw [hchar, List.flatMap_assoc]

theorem escapeAttribute_eq (s : String) : escapeAttribute s = escapedValue s := by
  have hchar : ∀ c : Char, escapeAttributeChar c =
      if c = '"' then ['&', 'q', 'u', 'o', 't', ';'] else [c] := by
    intro c
    unfold escapeAttributeChar
    split <;> simp_all
  have hquote : "\"".toList = ['"'] := rfl
  rw [escapedValue, replace, hquote, replaceFrom_singleton, escapeAttribute]
  exact congrArg String.ofList (List.flatMap_congr fun c _ => hchar c)

/-! ### Taking entities back -/

/-- A text without entities. -/
def unescape (s : String) : String :=
  replace "&amp;" "&" (replace "&lt;" "<" s)

/-- A plain space for a no-break one. -/
def plainSpace (c : Char) : Char :=
  if c = '\u00A0' then ' ' else c

/-- A text with plain spaces for no-break ones. -/
def plainSpaces (s : String) : String :=
  s.map plainSpace

/-- A character of text in which only ampersands are escaped. -/
def escapeAmpersand (c : Char) : List Char :=
  if c = '&' then ['&', 'a', 'm', 'p', ';'] else [plainSpace c]

theorem escapeChar_eq (c : Char) :
    escapeChar c = if c = '<' then ['&', 'l', 't', ';'] else escapeAmpersand c := by
  unfold escapeChar escapeAmpersand plainSpace
  split <;> simp_all

theorem plainSpace_ne_ampersand {c : Char} (h : c ≠ '&') : plainSpace c ≠ '&' := by
  rw [plainSpace]
  split
  · decide
  · exact h

-- What is left of an entity cannot be read as another one: its first character is its only `&`.
theorem replaceFrom_lt (cs : List Char) :
    replaceFrom ['&', 'l', 't', ';'] ['<'] 0 (cs.flatMap escapeChar) =
      cs.flatMap escapeAmpersand := by
  induction cs with
  | nil => rfl
  | cons c cs ih =>
    rw [List.flatMap_cons, List.flatMap_cons, escapeChar_eq]
    by_cases hlt : c = '<'
    · simpa [hlt, replaceFrom, escapeAmpersand, plainSpace] using ih
    · rw [if_neg hlt, escapeAmpersand]
      by_cases hamp : c = '&'
      · simpa [hamp, replaceFrom] using ih
      · rw [if_neg hamp, List.singleton_append, List.singleton_append,
          replaceFrom_cons_of_ne (plainSpace_ne_ampersand hamp), ih]

theorem replaceFrom_amp (cs : List Char) :
    replaceFrom ['&', 'a', 'm', 'p', ';'] ['&'] 0 (cs.flatMap escapeAmpersand) =
      cs.map plainSpace := by
  induction cs with
  | nil => rfl
  | cons c cs ih =>
    rw [List.flatMap_cons, List.map_cons, escapeAmpersand]
    by_cases hamp : c = '&'
    · simpa [hamp, replaceFrom, plainSpace] using ih
    · rw [if_neg hamp, List.singleton_append,
        replaceFrom_cons_of_ne (plainSpace_ne_ampersand hamp), ih]

/-- Escaping a text can be taken back, but for its no-break spaces. -/
theorem unescape_escape (s : String) : unescape (escape s) = plainSpaces s := by
  have hlt : replace "&lt;" "<" (escape s) = String.ofList (s.toList.flatMap escapeAmpersand) := by
    simp only [replace, escape, String.toList_ofList]
    exact congrArg String.ofList (replaceFrom_lt s.toList)
  rw [unescape, hlt, plainSpaces, String.map_eq_internal]
  simp only [replace, String.toList_ofList]
  exact congrArg String.ofList (replaceFrom_amp s.toList)

theorem escape_append (s t : String) : escape (s ++ t) = escape s ++ escape t := by
  rw [escape, String.toList_append, List.flatMap_append, String.ofList_append]
  rfl

/-! ### Dropping tags -/

/-- Drops all tags. `inside` says whether one is open. -/
def dropTags : Bool → List Char → List Char
  | _, [] => []
  | inside, c :: cs =>
    if c = '<' then dropTags true cs
    else if inside then dropTags (c != '>') cs
    else c :: dropTags false cs

/-- The text between the tags of markup. -/
def stripTags (s : String) : String :=
  String.ofList (dropTags false s.toList)

/-- Markup in which all tags are closed, with the text that is left without them. -/
def HasText (markup text : String) : Prop :=
  ∀ rest, dropTags false (markup.toList ++ rest) = text.toList ++ dropTags false rest

theorem HasText.stripTags {markup text : String} (h : HasText markup text) :
    stripTags markup = text := by
  have hend := h []
  rw [List.append_nil] at hend
  rw [Markup.stripTags, hend, dropTags, List.append_nil, String.ofList_toList]

theorem HasText.empty : HasText "" "" :=
  fun _ => rfl

theorem HasText.append {m n s t : String} (hm : HasText m s) (hn : HasText n t) :
    HasText (m ++ n) (s ++ t) := by
  intro rest
  rw [String.toList_append, List.append_assoc, hm, hn, String.toList_append, List.append_assoc]

theorem lt_notMem_escape (s : String) : '<' ∉ (escape s).toList := by
  rw [escape, String.toList_ofList, List.mem_flatMap]
  rintro ⟨c, -, hc⟩
  unfold escapeChar at hc
  split at hc <;> simp_all [eq_comm]

/-- Escaped text has no tags. -/
theorem hasText_escape (s : String) : HasText (escape s) (escape s) := by
  have hplain : ∀ cs rest : List Char, '<' ∉ cs →
      dropTags false (cs ++ rest) = cs ++ dropTags false rest := by
    intro cs rest hcs
    induction cs with
    | nil => rfl
    | cons c cs ih =>
      rw [List.mem_cons, not_or] at hcs
      simp [dropTags, Ne.symm hcs.1, ih hcs.2]
  intro rest
  exact hplain _ rest (lt_notMem_escape s)

/-- A tag without a `>` before its end is no text. -/
theorem hasText_tag {name : String} (h : '>' ∉ name.toList) : HasText ("<" ++ name ++ ">") "" := by
  have hopen : ∀ cs rest : List Char, '>' ∉ cs →
      dropTags true (cs ++ '>' :: rest) = dropTags false rest := by
    intro cs rest hcs
    induction cs with
    | nil => rfl
    | cons c cs ih =>
      rw [List.mem_cons, not_or] at hcs
      have hc : (c != '>') = true := bne_iff_ne.2 (Ne.symm hcs.1)
      rw [List.cons_append, dropTags, hc, if_pos rfl, ih hcs.2, ite_self]
  intro rest
  simpa [dropTags] using hopen name.toList rest h

theorem notMem_intercalate {c : Char} {names : List String} (hc : c ≠ ' ')
    (h : ∀ name ∈ names, c ∉ name.toList) : c ∉ (String.intercalate " " names).toList := by
  have hjoin : ∀ parts : List (List Char), (∀ part ∈ parts, c ∉ part) →
      c ∉ [' '].intercalate parts := by
    intro parts hparts
    induction parts with
    | nil => exact List.not_mem_nil
    | cons part rest ih =>
      rw [List.forall_mem_cons] at hparts
      cases rest with
      | nil => simpa using hparts.1
      | cons next rest =>
        rw [List.intercalate_cons_cons]
        simp [hparts.1, hc, ih hparts.2]
  rw [String.toList_intercalate]
  exact hjoin _ (List.forall_mem_map.2 h)

/-- An element has the text of what is in it. -/
theorem HasText.element {env : WrapEnv} {text : String} (h : HasText env.content text)
    (htag : '>' ∉ env.tag.toList) (hclasses : ∀ name ∈ env.classes, '>' ∉ name.toList)
    (hattributes : env.attributes = .empty) : HasText (element env) text := by
  let name := env.tag ++ " class=\"" ++ String.intercalate " " env.classes ++ "\""
  have hname : '>' ∉ name.toList := by
    have hnames := notMem_intercalate (by decide) hclasses
    simp only [name, String.toList_append, List.mem_append, htag, hnames]
    decide
  have hclose : '>' ∉ ("/" ++ env.tag).toList := by
    rw [String.toList_append, List.mem_append]
    simp [htag]
  have hall := ((hasText_tag hname).append h).append (hasText_tag hclose)
  have helement : Markup.element env =
      "<" ++ name ++ ">" ++ env.content ++ ("<" ++ ("/" ++ env.tag) ++ ">") := by
    have hnone : attributes .empty = "" := rfl
    have hslash : "</" = "<" ++ "/" := rfl
    unfold Markup.element
    rw [hattributes, hnone, hslash]
    simp only [name, String.append_assoc, String.append_empty]
  rw [helement]
  simpa using hall

end Markup

/-! ### Callbacks -/

theorem HookRegistry.run_of_isEmpty {ε σ : Type} {r : HookRegistry ε σ} (h : r.isEmpty = true)
    (name : String) (env : ε) (st : σ) : r.run name env st = (env, st) := by
  have hfind : ∀ entries : List (String × List (Hook ε σ)),
      (entries.all fun entry => entry.2.isEmpty) = true →
      (Table.find? name entries).getD [] = [] := by
    intro entries hentries
    induction entries with
    | nil => rfl
    | cons entry rest ih =>
      rw [List.all_cons, Bool.and_eq_true] at hentries
      rw [Table.find?]
      split
      · exact List.isEmpty_iff.1 hentries.1
      · exact ih hentries.2
  have hget : r.get name = [] := hfind _ h
  rw [run, hget]
  rfl

/-! ### Rendering -/

mutual

/-- Every kind and every alias in a node has `P`. -/
def Node.Named (P : String → Prop) : Node → Prop
  | .text _ => True
  | .token t => t.Named P

/-- Every kind and every alias of a token, and of those in it, has `P`. -/
def Token.Named (P : String → Prop) : Token → Prop
  | .mk kind content aliases _ => P kind ∧ (∀ name ∈ aliases, P name) ∧ content.Named P

/-- Every kind and every alias in what a token holds has `P`. -/
def Content.Named (P : String → Prop) : Content → Prop
  | .text _ => True
  | .nested nodes => NamedAll P nodes

/-- Every kind and every alias in a token tree has `P`. -/
def NamedAll (P : String → Prop) : List Node → Prop
  | [] => True
  | node :: nodes => node.Named P ∧ NamedAll P nodes

end

namespace Markup

/-- A name that does not end a tag. -/
def Unclosing (name : String) : Prop :=
  '>' ∉ name.toList

variable {σ : Type} {config : RenderConfig} {hooks : HookRegistry WrapEnv σ}

theorem unclosing_classes {t : Token} (hfirst : Unclosing config.classPrefix)
    (hkind : Unclosing t.kind) (haliases : ∀ name ∈ t.aliases, Unclosing name) :
    ∀ name ∈ classes config t, Unclosing name := by
  intro name hname
  rw [classes, List.mem_append, List.mem_cons] at hname
  rcases hname with hname | rfl | hname
  · split at hname
    · contradiction
    · rwa [List.mem_singleton.1 hname]
  · exact hkind
  · exact haliases name hname

/-- Rendering that runs no callbacks, and whose own names do not end a tag. -/
structure Plain (config : RenderConfig) (hooks : HookRegistry WrapEnv σ) : Prop where
  hooks : hooks.isEmpty = true
  tag : Unclosing config.tag
  classPrefix : Unclosing config.classPrefix

mutual

/-- A node has the markup of its text, wherever it stands. -/
theorem exists_renderNode (hplain : Plain config hooks) (language : String) (node : Node)
    (h : node.Named Unclosing) (out : String) (st : σ) :
    ∃ markup, renderNode config hooks language out st node = (out ++ markup, st) ∧
      HasText markup (escape node.flatten) := by
  match node with
  | .text s => exact ⟨_, rfl, hasText_escape s⟩
  | .token (.mk kind content aliases length) =>
    obtain ⟨hkind, haliases, hcontent⟩ := h
    obtain ⟨markup, hrender, htext⟩ := exists_renderContent hplain language content hcontent st
    let env := wrapEnv config language (.mk kind content aliases length) markup
    refine ⟨element env, ?_, ?_⟩
    · rw [renderNode, hrender]
      dsimp only
      -- the callbacks see the element, and there are none
      rw [HookRegistry.run_of_isEmpty hplain.hooks]
    · rw [Node.flatten, Token.flatten]
      exact htext.element hplain.tag (unclosing_classes hplain.classPrefix hkind haliases) rfl

theorem exists_renderContent (hplain : Plain config hooks) (language : String) (content : Content)
    (h : content.Named Unclosing) (st : σ) :
    ∃ markup, renderContent config hooks language st content = (markup, st) ∧
      HasText markup (escape content.flatten) := by
  match content with
  | .text s => exact ⟨_, rfl, hasText_escape s⟩
  | .nested nodes =>
    obtain ⟨markup, hrender, htext⟩ := exists_renderNodes hplain language nodes h "" st
    refine ⟨markup, ?_, htext⟩
    rw [renderContent, hrender, String.empty_append]

theorem exists_renderNodes (hplain : Plain config hooks) (language : String) (nodes : List Node)
    (h : NamedAll Unclosing nodes) (out : String) (st : σ) :
    ∃ markup, renderNodes config hooks language out st nodes = (out ++ markup, st) ∧
      HasText markup (escape (flattenAll nodes)) := by
  match nodes with
  | [] => exact ⟨"", by rw [renderNodes, String.append_empty], .empty⟩
  | node :: nodes =>
    obtain ⟨hnode, hnodes⟩ := h
    obtain ⟨first, hfirst, hfirstText⟩ := exists_renderNode hplain language node hnode out st
    obtain ⟨others, hothers, hothersText⟩ :=
      exists_renderNodes hplain language nodes hnodes (out ++ first) st
    refine ⟨first ++ others, ?_, ?_⟩
    · rw [renderNodes, hfirst]
      dsimp only
      rw [hothers, String.append_assoc]
    · rw [flattenAll, escape_append]
      exact hfirstText.append hothersText

end

/-- The markup of a token tree is, without its tags, the escaped text of the tree. -/
theorem exists_render (hplain : Plain config hooks) (language : String) {nodes : List Node}
    (h : NamedAll Unclosing nodes) (st : σ) :
    ∃ markup, render config hooks language nodes st = (markup, st) ∧
      stripTags markup = escape (flattenAll nodes) := by
  obtain ⟨markup, hrender, htext⟩ := exists_renderNodes hplain language nodes h "" st
  refine ⟨markup, ?_, htext.stripTags⟩
  rw [render, hrender, String.empty_append]

end Markup

end SyntaxHue
