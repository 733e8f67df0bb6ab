import SyntaxHue.Proofs.Markup

/-!
# Markup is read in one way

Without callbacks, the markup of a token tree tells the tree apart from all others, as far as its
texts and its classes go. `piecesOf` is what it tells: where one text ends and the next begins is
lost, and so is the difference between a no-break space and a plain one.
-/

namespace SyntaxHue

namespace Markup

/-! ### What markup tells of a tree -/

/-- A piece of markup: text, or an element with its classes. -/
inductive Piece where
  | text (s : String)
  | element (classes : List String) (inside : List Piece)

/-- Text in front of pieces. Empty text is none, and text in front of text is one text with it. -/
def consText (s : String) : List Piece → List Piece
  | .text t :: pieces => .text (s ++ t) :: pieces
  | pieces => if s = "" then pieces else .text s :: pieces

theorem consText_empty (pieces : List Piece) : consText "" pieces = pieces := by
  match pieces with
  | [] => rfl
  | .text t :: _ => rw [consText, String.empty_append]
  | .element _ _ :: _ => rfl

theorem consText_consText (s t : String) (pieces : List Piece) :
    consText s (consText t pieces) = consText (s ++ t) pieces := by
  by_cases ht : t = ""
  · rw [ht, consText_empty, String.append_empty]
  match pieces with
  | [] => simp [consText, ht]
  | .text u :: _ => simp only [consText, String.append_assoc]
  | .element _ _ :: _ => simp [consText, ht]

/-- The classes of an element: the first class of all elements, if there is one, and `names`. -/
def classList (config : RenderConfig) (names : List String) : List String :=
  (if config.classPrefix = "" then [] else [config.classPrefix]) ++ names

end Markup

open Markup (Piece consText classList)

mutual

/-- A node in front of pieces. -/
def Node.pieces (config : RenderConfig) (more : List Piece) : Node → List Piece
  | .text s => consText (Markup.plainSpaces s) more
  | .token t => t.piece config :: more

/-- A token as an element. -/
def Token.piece (config : RenderConfig) : Token → Piece
  | .mk kind content aliases _ =>
    .element (classList config (kind :: aliases)) (content.pieces config)

/-- The pieces inside a token. -/
def Content.pieces (config : RenderConfig) : Content → List Piece
  | .text s => consText (Markup.plainSpaces s) []
  | .nested nodes => piecesOf config nodes

/-- The pieces of a token tree. -/
def piecesOf (config : RenderConfig) : List Node → List Piece
  | [] => []
  | node :: nodes => node.pieces config (piecesOf config nodes)

end

namespace Markup

/-! ### Reading markup -/

/-- A name that ends neither a class nor the list of classes. -/
def ClassName (name : String) : Prop :=
  ' ' ∉ name.toList ∧ '"' ∉ name.toList

/-- What stands before the classes that differ from element to element. -/
def opening (config : RenderConfig) : List Char :=
  '<' :: (config.tag ++ " class=\"" ++
    if config.classPrefix.isEmpty then "" else config.classPrefix ++ " ").toList

/-- What stands behind the content of an element. -/
def closing (config : RenderConfig) : List Char :=
  '<' :: '/' :: config.tag.toList ++ ['>']

/-- Content ends with the markup or at a closing tag. -/
def Ends (rest : List Char) : Prop :=
  rest = [] ∨ ∃ cs, rest = '<' :: '/' :: cs

/-- Markup that reads as pieces, up to the end of the content they are in, with what is left. -/
inductive Reads (config : RenderConfig) : List Char → List Piece → List Char → Prop
  | stop {rest : List Char} (hends : Ends rest) : Reads config rest [] rest
  | char (c : Char) {cs rest : List Char} {more : List Piece} (hmore : Reads config cs more rest) :
      Reads config (escapeChar c ++ cs) (consText (String.singleton (plainSpace c)) more) rest
  | element (names : List String) {cs after rest : List Char} {inside more : List Piece}
      (hne : names ≠ []) (hnames : ∀ name ∈ names, ClassName name)
      (hinside : Reads config cs inside (closing config ++ after))
      (hmore : Reads config after more rest) :
      Reads config (opening config ++ ((String.intercalate " " names).toList ++ '"' :: '>' :: cs))
        (.element (classList config names) inside :: more) rest

/-! ### One way to read -/

theorem escapeChar_ne_nil (c : Char) : escapeChar c ≠ [] := by
  unfold escapeChar
  split <;> simp

theorem escapeChar_append_ne (c : Char) (cs ds : List Char) : escapeChar c ++ cs ≠ '<' :: ds := by
  unfold escapeChar
  split <;> simp_all

/-- A character is known from its escape, but for the kind of a space. -/
theorem escapeChar_cancel {c d : Char} {cs ds : List Char}
    (h : escapeChar c ++ cs = escapeChar d ++ ds) : plainSpace c = plainSpace d ∧ cs = ds := by
  simp only [escapeChar_eq, escapeAmpersand] at h
  -- only an entity begins with an ampersand, and the two entities differ behind it
  have hne : ∀ e : Char, e ≠ '&' → plainSpace e ≠ '&' := fun e => plainSpace_ne_ampersand
  by_cases hc : c = '<' <;> by_cases hd : d = '<' <;> by_cases hc' : c = '&' <;>
    by_cases hd' : d = '&' <;> simp_all [eq_comm]

theorem opening_append_ne {config : RenderConfig} (htag : '/' ∉ config.tag.toList)
    (cs ds : List Char) : opening config ++ cs ≠ '<' :: '/' :: ds := by
  rw [opening]
  cases hname : config.tag.toList with
  | nil => simp [hname]
  | cons c name =>
    have hc : c ≠ '/' := by
      rintro rfl
      exact htag (hname ▸ List.mem_cons_self)
    simp [hname, hc]

/-- What stands before the first mark is known. -/
theorem mark_cancel {mark : Char} {xs ys cs ds : List Char} (hxs : mark ∉ xs) (hys : mark ∉ ys)
    (h : xs ++ mark :: cs = ys ++ mark :: ds) : xs = ys ∧ cs = ds := by
  have hlen : xs.length = ys.length := by
    simpa [List.idxOf_append_of_notMem hxs, List.idxOf_append_of_notMem hys] using
      congrArg (List.idxOf mark) h
  obtain ⟨hfirst, hrest⟩ := List.append_inj h hlen
  exact ⟨hfirst, (List.cons.inj hrest).2⟩

/-- Class names are known from what they are joined to. -/
theorem classNames_cancel {names others : List String} (hne : names ≠ []) (hne' : others ≠ [])
    (hnames : ∀ name ∈ names, ClassName name) (hothers : ∀ name ∈ others, ClassName name)
    (h : String.intercalate " " names = String.intercalate " " others) : names = others := by
  have hsplit : ∀ {words : List String}, words ≠ [] → (∀ word ∈ words, ClassName word) →
      (String.intercalate " " words).toList.splitOn ' ' = words.map String.toList := by
    intro words hwords hclass
    rw [String.toList_intercalate]
    refine List.splitOn_intercalate ' ' ?_ (mt List.map_eq_nil_iff.1 hwords)
    exact List.forall_mem_map.2 fun word hword => (hclass word hword).1
  have hchars := congrArg (fun s : String => s.toList.splitOn ' ') h
  simp only [hsplit hne hnames, hsplit hne' hothers] at hchars
  exact List.map_injective_iff.2 (fun _ _ => String.toList_inj.1) hchars

variable {config : RenderConfig}

theorem Reads.stop_inv {cs rest : List Char} {found : List Piece} (hends : Ends cs)
    (htag : '/' ∉ config.tag.toList) (h : Reads config cs found rest) : found = [] ∧ rest = cs := by
  cases h with
  | stop => exact ⟨rfl, rfl⟩
  | char c hmore =>
    rcases hends with hnil | ⟨ds, hds⟩
    · exact absurd (List.append_eq_nil_iff.1 hnil).1 (escapeChar_ne_nil c)
    · exact absurd hds (escapeChar_append_ne c _ _)
  | element names hne hnames hinside hmore =>
    rcases hends with hnil | ⟨ds, hds⟩
    · cases hnil
    · exact absurd hds (opening_append_ne htag _ _)

theorem Reads.char_inv {c : Char} {cs rest : List Char} {found : List Piece}
    (h : Reads config (escapeChar c ++ cs) found rest) :
    ∃ more, found = consText (String.singleton (plainSpace c)) more ∧
      Reads config cs more rest := by
  generalize hall : escapeChar c ++ cs = all at h
  cases h with
  | stop hends =>
    rcases hends with rfl | ⟨ds, rfl⟩
    · exact absurd (List.append_eq_nil_iff.1 hall).1 (escapeChar_ne_nil c)
    · exact absurd hall (escapeChar_append_ne c _ _)
  | char d hmore =>
    obtain ⟨hspace, rfl⟩ := escapeChar_cancel hall
    exact ⟨_, by rw [hspace], hmore⟩
  | element => exact absurd hall (escapeChar_append_ne c _ _)

theorem Reads.element_inv {names : List String} {cs rest : List Char} {found : List Piece}
    (htag : '/' ∉ config.tag.toList) (hne : names ≠ []) (hnames : ∀ name ∈ names, ClassName name)
    (h : Reads config
      (opening config ++ ((String.intercalate " " names).toList ++ '"' :: '>' :: cs)) found rest) :
    ∃ inside more after, found = .element (classList config names) inside :: more ∧
      Reads config cs inside (closing config ++ after) ∧ Reads config after more rest := by
  generalize hall :
    opening config ++ ((String.intercalate " " names).toList ++ '"' :: '>' :: cs) = all at h
  cases h with
  | stop hends =>
    rcases hends with rfl | ⟨ds, rfl⟩
    · cases hall
    · exact absurd hall (opening_append_ne htag _ _)
  | char d hmore => exact absurd hall.symm (escapeChar_append_ne d _ _)
  | element others hne' hothers hinside hmore =>
    -- both lists of classes go up to the first quote
    have hquote : ∀ {words : List String}, (∀ word ∈ words, ClassName word) →
        '"' ∉ (String.intercalate " " words).toList := by
      intro words hclass
      exact notMem_intercalate (by decide) fun word hword => (hclass word hword).2
    obtain ⟨hjoin, hcs⟩ :=
      mark_cancel (hquote hnames) (hquote hothers) (List.append_cancel_left hall)
    obtain rfl := (List.cons.inj hcs).2
    obtain rfl := classNames_cancel hne hne' hnames hothers (String.toList_inj.1 hjoin)
    exact ⟨_, _, _, rfl, hinside, hmore⟩

theorem ends_closing (config : RenderConfig) (after : List Char) : Ends (closing config ++ after) :=
  .inr ⟨config.tag.toList ++ '>' :: after, by simp [closing]⟩

/-- Markup reads in one way only. -/
theorem Reads.unique {cs rest rest' : List Char} {found found' : List Piece}
    (htag : '/' ∉ config.tag.toList) (h : Reads config cs found rest)
    (h' : Reads config cs found' rest') : found = found' ∧ rest = rest' := by
  induction h generalizing found' rest' with
  | stop hends =>
    obtain ⟨rfl, rfl⟩ := h'.stop_inv hends htag
    exact ⟨rfl, rfl⟩
  | char c _ ih =>
    obtain ⟨more', rfl, hmore'⟩ := h'.char_inv
    obtain ⟨rfl, rfl⟩ := ih hmore'
    exact ⟨rfl, rfl⟩
  | element names hne hnames _ _ ihInside ihMore =>
    obtain ⟨inside', more', after', rfl, hinside', hmore'⟩ := h'.element_inv htag hne hnames
    -- the content ends at the same place, so the same markup is left behind the element
    obtain ⟨rfl, hafter⟩ := ihInside hinside'
    obtain rfl := List.append_cancel_left hafter
    obtain ⟨rfl, rfl⟩ := ihMore hmore'
    exact ⟨rfl, rfl⟩

/-! ### Rendered markup reads as its tree -/

variable {σ : Type} {hooks : HookRegistry WrapEnv σ}

theorem Reads.text {cs rest : List Char} {more : List Piece} (h : Reads config cs more rest)
    (s : String) :
    Reads config ((escape s).toList ++ cs) (consText (plainSpaces s) more) rest := by
  have hchars : ∀ chars : List Char, Reads config (chars.flatMap escapeChar ++ cs)
      (consText (String.ofList (chars.map plainSpace)) more) rest := by
    intro chars
    induction chars with
    | nil => simpa [consText_empty] using h
    | cons c chars ih =>
      have hcons := Reads.char c ih
      rw [consText_consText, ← List.append_assoc] at hcons
      rw [List.flatMap_cons, List.map_cons, ← List.singleton_append, String.ofList_append]
      exact hcons
  rw [escape, String.toList_ofList, plainSpaces, String.map_eq_internal]
  exact hchars s.toList

theorem toList_element (language : String) (t : Token) (content : String) (cs : List Char) :
    (element (wrapEnv config language t content)).toList ++ cs =
      opening config ++ ((String.intercalate " " (t.kind :: t.aliases)).toList ++
        '"' :: '>' :: (content.toList ++ (closing config ++ cs))) := by
  have hnone : attributes .empty = "" := rfl
  have hfirst : String.intercalate " " (classes config t) =
      (if config.classPrefix.isEmpty then "" else config.classPrefix ++ " ") ++
        String.intercalate " " (t.kind :: t.aliases) := by
    rw [classes]
    split
    · simp
    · rw [List.singleton_append, String.intercalate_cons_cons]
  simp only [element, wrapEnv, hnone, hfirst, opening, closing]
  simp

mutual

theorem reads_renderNode (hhooks : hooks.isEmpty = true) (language : String) (node : Node)
    (h : node.Named ClassName) (out : String) (st : σ) :
    ∃ markup, renderNode config hooks language out st node = (out ++ markup, st) ∧
      ∀ {cs rest more}, Reads config cs more rest →
        Reads config (markup.toList ++ cs) (node.pieces config more) rest := by
  match node with
  | .text s => exact ⟨_, rfl, fun hmore => hmore.text s⟩
  | .token (.mk kind content aliases length) =>
    obtain ⟨hkind, haliases, hcontent⟩ := h
    obtain ⟨markup, hrender, hreads⟩ := reads_renderContent hhooks language content hcontent st
    refine ⟨element (wrapEnv config language (.mk kind content aliases length) markup), ?_, ?_⟩
    · rw [renderNode, hrender]
      dsimp only
      rw [HookRegistry.run_of_isEmpty hhooks]
    · intro cs rest more hmore
      rw [toList_element, Node.pieces, Token.piece]
      have hclasses : ∀ name ∈ kind :: aliases, ClassName name :=
        List.forall_mem_cons.2 ⟨hkind, haliases⟩
      exact .element _ (List.cons_ne_nil _ _) hclasses (hreads (ends_closing config cs)) hmore

theorem reads_renderContent (hhooks : hooks.isEmpty = true) (language : String) (content : Content)
    (h : content.Named ClassName) (st : σ) :
    ∃ markup, renderContent config hooks language st content = (markup, st) ∧
      ∀ {rest}, Ends rest → Reads config (markup.toList ++ rest) (content.pieces config) rest := by
  match content with
  | .text s => exact ⟨_, rfl, fun hends => (Reads.stop hends).text s⟩
  | .nested nodes =>
    obtain ⟨markup, hrender, hreads⟩ := reads_renderNodes hhooks language nodes h "" st
    refine ⟨markup, ?_, hreads⟩
    rw [renderContent, hrender, String.empty_append]

theorem reads_renderNodes (hhooks : hooks.isEmpty = true) (language : String) (nodes : List Node)
    (h : NamedAll ClassName nodes) (out : String) (st : σ) :
    ∃ markup, renderNodes config hooks language out st nodes = (out ++ markup, st) ∧
      ∀ {rest}, Ends rest → Reads config (markup.toList ++ rest) (piecesOf config nodes) rest := by
  match nodes with
  | [] => exact ⟨"", by rw [renderNodes, String.append_empty], .stop⟩
  | node :: nodes =>
    obtain ⟨hnode, hnodes⟩ := h
    obtain ⟨first, hfirst, hfirstReads⟩ := reads_renderNode hhooks language node hnode out st
    obtain ⟨others, hothers, hothersReads⟩ :=
      reads_renderNodes hhooks language nodes hnodes (out ++ first) st
    refine ⟨first ++ others, ?_, ?_⟩
    · rw [renderNodes, hfirst]
      dsimp only
      rw [hothers, String.append_assoc]
    · intro rest hends
      rw [String.toList_append, List.append_assoc, piecesOf]
      exact hfirstReads (hothersReads hends)

end

/-- Trees with the same markup have the same pieces: the same texts between the same elements, with
    the same classes, at all depths. -/
theorem piecesOf_eq_of_render_eq (hhooks : hooks.isEmpty = true) (htag : '/' ∉ config.tag.toList)
    {nodes others : List Node} (hnodes : NamedAll ClassName nodes)
    (hothers : NamedAll ClassName others) {language language' : String} {st st' : σ}
    (h : (render config hooks language nodes st).1 = (render config hooks language' others st').1) :
    piecesOf config nodes = piecesOf config others := by
  obtain ⟨markup, hrender, hreads⟩ := reads_renderNodes hhooks language nodes hnodes "" st
  obtain ⟨markup', hrender', hreads'⟩ := reads_renderNodes hhooks language' others hothers "" st'
  rw [render, render, hrender, hrender', String.empty_append, String.empty_append] at h
  obtain rfl : markup = markup' := h
  have hends : Ends [] := .inl rfl
  exact ((hreads hends).unique htag (hreads' hends)).1

/-- Text that looks like markup, next to a token. -/
def lookalike : List Node :=
  [.text "a\u00A0", .text "", .text "<b>&", .token (.mk "tag" (.text "</span>") ["x"] 7)]

/-- The same text, split at other places. The token holds it as nodes. -/
def lookalikeSplit : List Node :=
  [.text "a <b", .text ">&",
    .token (.mk "tag" (.nested [.text "</", .text "span>"]) ["x"] 7)]

theorem piecesOf_eq_of_render_eq_split :
    ((HookRegistry.empty : HookRegistry WrapEnv Unit).isEmpty = true ∧
      '/' ∉ ({} : RenderConfig).tag.toList ∧
      NamedAll ClassName lookalike ∧ NamedAll ClassName lookalikeSplit ∧
      (render {} (.empty : HookRegistry WrapEnv Unit) "" lookalike ()).1 =
        (render {} (.empty : HookRegistry WrapEnv Unit) "" lookalikeSplit ()).1) ∧
    piecesOf {} lookalike = piecesOf {} lookalikeSplit := by
  have hhooks : (HookRegistry.empty : HookRegistry WrapEnv Unit).isEmpty = true := rfl
  have htag : '/' ∉ ({} : RenderConfig).tag.toList := by decide
  have hnamed : NamedAll ClassName lookalike := by
    simp [lookalike, NamedAll, Node.Named, Token.Named, Content.Named, ClassName]
  have hnamed' : NamedAll ClassName lookalikeSplit := by
    simp [lookalikeSplit, NamedAll, Node.Named, Token.Named, Content.Named, ClassName]
  have hmarkup : (render {} (.empty : HookRegistry WrapEnv Unit) "" lookalike ()).1 =
      (render {} (.empty : HookRegistry WrapEnv Unit) "" lookalikeSplit ()).1 := by
    decide
  exact ⟨⟨hhooks, htag, hnamed, hnamed', hmarkup⟩,
    piecesOf_eq_of_render_eq hhooks htag hnamed hnamed' hmarkup⟩

end Markup

end SyntaxHue
