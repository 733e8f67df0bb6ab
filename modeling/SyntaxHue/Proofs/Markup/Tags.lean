import SyntaxHue.Proofs.Markup
import SyntaxHue.Proofs.Markup.Wrap

/-!
# The tags of markup

A scan goes through markup character by character and gives the tags it finds, with their
attributes. Between the quotes of an attribute stands what the tree says, so only a quote can end
an attribute early. The values of added attributes are escaped and have none; classes are not
escaped. The markup of a tree therefore has the tags of the tree, and no others, just when there is
no quote in a class.
-/

namespace SyntaxHue

namespace Markup

/-! ### Scanning -/

/-- A tag, with names and values as they stand in the markup. -/
inductive Tag where
  | start (name : String) (attributes : List (String × String))
  | stop (name : String)
deriving DecidableEq, Repr

/-- Where a scan is, with what it has read of the tag it is in. -/
inductive Place where
  | text
  /-- Behind a `<`. -/
  | opened
  /-- In the name of a start tag. -/
  | tag (read : List Char)
  /-- In the name of an end tag. -/
  | stop (read : List Char)
  /-- In the name of an attribute. -/
  | key (name : String) (attributes : List (String × String)) (read : List Char)
  /-- Behind the `=` of an attribute. -/
  | equals (name : String) (attributes : List (String × String)) (key : String)
  /-- Between the quotes of an attribute. -/
  | value (name : String) (attributes : List (String × String)) (key : String) (read : List Char)
  /-- Behind the quotes of an attribute. -/
  | closed (name : String) (attributes : List (String × String))

/-- A character of a name. -/
def isNameChar (c : Char) : Bool :=
  !c.isWhitespace && !(['"', '>', '/', '='].contains c)

/-- The step of a scan between the attributes of a start tag. -/
def stepBetween (name : String) (attributes : List (String × String)) (c : Char) :
    Option (Place × List Tag) :=
  if c.isWhitespace then some (.key name attributes [], [])
  else if c = '>' then some (.text, [.start name attributes])
  else none

/-- The step of a scan, with the tags that end there. -/
def step : Place → Char → Option (Place × List Tag)
  | .text, c => some (if c = '<' then .opened else .text, [])
  | .opened, c =>
    if c = '/' then some (.stop [], [])
    else if c.isAlpha then some (.tag [c], [])
    else none
  | .tag read, c =>
    if isNameChar c then some (.tag (read ++ [c]), [])
    else stepBetween (String.ofList read) [] c
  | .stop read, c =>
    if isNameChar c then some (.stop (read ++ [c]), [])
    else if c = '>' then some (.text, [.stop (String.ofList read)])
    else none
  | .key name attributes read, c =>
    if isNameChar c then some (.key name attributes (read ++ [c]), [])
    else if read = [] then stepBetween name attributes c
    else if c = '=' then some (.equals name attributes (String.ofList read), [])
    else none
  | .equals name attributes key, c =>
    if c = '"' then some (.value name attributes key [], []) else none
  | .value name attributes key read, c =>
    if c = '"' then some (.closed name (attributes ++ [(key, String.ofList read)]), [])
    else some (.value name attributes key (read ++ [c]), [])
  | .closed name attributes, c => stepBetween name attributes c

/-- The tags from a place on, unless there is a tag that cannot be read or does not end. -/
def scan : Place → List Char → Option (List Tag)
  | .text, [] => some []
  | _, [] => none
  | place, c :: cs =>
    match step place c with
    | none => none
    | some (next, tags) => (scan next cs).map (tags ++ ·)

/-- The tags of markup. -/
def scanTags (markup : String) : Option (List Tag) :=
  scan .text markup.toList

/-- Scanning `cs` leads to another place and gives `tags`, whatever follows. -/
def Moves (place : Place) (cs : List Char) (next : Place) (tags : List Tag) : Prop :=
  ∀ rest, scan place (cs ++ rest) = (scan next rest).map (tags ++ ·)

/-- Scanning `cs` does not give `tags` first, whatever follows. -/
def Strays (place : Place) (cs : List Char) (tags : List Tag) : Prop :=
  ∀ rest more, scan place (cs ++ rest) ≠ some (tags ++ more)

theorem Moves.nil (place : Place) : Moves place [] place [] := by
  intro rest
  exact Option.map_id'.symm

theorem moves_of_step {place next : Place} {c : Char} {tags : List Tag}
    (h : step place c = some (next, tags)) : Moves place [c] next tags := by
  intro rest
  rw [List.singleton_append, scan, h]

theorem Moves.append {place mid next : Place} {cs ds : List Char} {tags more : List Tag}
    (h : Moves place cs mid tags) (hmore : Moves mid ds next more) :
    Moves place (cs ++ ds) next (tags ++ more) := by
  intro rest
  rw [List.append_assoc, h, hmore, Option.map_map]
  congr 1
  funext others
  exact (List.append_assoc tags more others).symm

theorem Moves.strays {place mid : Place} {cs ds : List Char} {tags more : List Tag}
    (h : Moves place cs mid tags) (hmore : Strays mid ds more) :
    Strays place (cs ++ ds) (tags ++ more) := by
  intro rest others hscan
  rw [List.append_assoc, h, Option.map_eq_some_iff] at hscan
  obtain ⟨found, hfound, hall⟩ := hscan
  rw [List.append_assoc] at hall
  exact hmore rest others (hfound.trans (congrArg some (List.append_cancel_left hall)))

theorem Strays.append {place : Place} {cs : List Char} {tags : List Tag} (h : Strays place cs tags)
    (ds : List Char) (more : List Tag) : Strays place (cs ++ ds) (tags ++ more) := by
  intro rest others
  rw [List.append_assoc, List.append_assoc]
  exact h (ds ++ rest) (more ++ others)

/-- A scan that takes characters one after the other into what it has read. -/
theorem moves_of_reads {place : List Char → Place} {cs : List Char}
    (h : ∀ c ∈ cs, ∀ read, step (place read) c = some (place (read ++ [c]), []))
    (read : List Char) : Moves (place read) cs (place (read ++ cs)) [] := by
  induction cs generalizing read with
  | nil =>
    rw [List.append_nil]
    exact .nil _
  | cons c cs ih =>
    obtain ⟨hc, hcs⟩ := List.forall_mem_cons.1 h
    have hrest := ih hcs (read ++ [c])
    rw [List.append_assoc] at hrest
    exact (moves_of_step (hc read)).append hrest

theorem moves_text {cs : List Char} (h : '<' ∉ cs) : Moves .text cs .text [] := by
  have hstep : ∀ c ∈ cs, ∀ read : List Char, step .text c = some (.text, []) := by
    intro c hc _
    have hne : c ≠ '<' := fun heq => h (heq ▸ hc)
    rw [step, if_neg hne]
  exact @moves_of_reads (fun _ => .text) cs hstep []

/-! ### Start tags -/

/-- The name of an attribute. -/
def IsName (name : String) : Prop :=
  name ≠ "" ∧ ∀ c ∈ name.toList, isNameChar c = true

/-- The name of an element. -/
def IsTagName (name : String) : Prop :=
  IsName name ∧ ∀ c ∈ name.toList.head?, c.isAlpha = true

instance (name : String) : Decidable (IsName name) :=
  haveI := List.decidableBAll (fun c => isNameChar c = true) name.toList
  inferInstanceAs (Decidable (_ ∧ _))

instance (name : String) : Decidable (IsTagName name) :=
  haveI := Option.decidableForallMem (p := fun c : Char => c.isAlpha = true) name.toList.head?
  inferInstanceAs (Decidable (_ ∧ _))

theorem IsName.toList_ne_nil {name : String} (h : IsName name) : name.toList ≠ [] :=
  fun hnil => h.1 (String.toList_eq_nil_iff.1 hnil)

theorem IsTagName.exists_cons {name : String} (h : IsTagName name) :
    ∃ c cs, name.toList = c :: cs ∧ c.isAlpha = true ∧ ∀ d ∈ cs, isNameChar d = true := by
  obtain ⟨hname, hfirst⟩ := h
  cases hchars : name.toList with
  | nil => exact absurd hchars hname.toList_ne_nil
  | cons c cs =>
    rw [hchars] at hfirst
    refine ⟨c, cs, rfl, hfirst c rfl, fun d hd => hname.2 d ?_⟩
    rw [hchars]
    exact List.mem_cons_of_mem c hd

/-- An attribute as it stands in a start tag. -/
def attributeChars (entry : String × String) : List Char :=
  ' ' :: (entry.1.toList ++ '=' :: '"' :: ((escapeAttribute entry.2).toList ++ ['"']))

/-- The attribute that is read from it. -/
def escaped (entry : String × String) : String × String :=
  (entry.1, escapeAttribute entry.2)

theorem toList_attributes (t : Table String) :
    (attributes t).toList = t.entries.flatMap attributeChars := by
  have hfold : ∀ (entries : List (String × String)) (out : String),
      (entries.foldl (fun out entry =>
        out ++ " " ++ entry.1 ++ "=\"" ++ escapeAttribute entry.2 ++ "\"") out).toList =
      out.toList ++ entries.flatMap attributeChars := by
    intro entries out
    induction entries generalizing out with
    | nil => simp
    | cons entry entries ih =>
      rw [List.foldl_cons, ih, List.flatMap_cons]
      simp [attributeChars]
  rw [attributes, hfold]
  simp

theorem quote_notMem_escapeAttribute (s : String) : '"' ∉ (escapeAttribute s).toList := by
  rw [escapeAttribute, String.toList_ofList, List.mem_flatMap]
  rintro ⟨c, -, hc⟩
  unfold escapeAttributeChar at hc
  split at hc <;> simp_all [eq_comm]

theorem flatMap_escapeAttributeChar {cs : List Char} (h : '"' ∉ cs) :
    cs.flatMap escapeAttributeChar = cs := by
  induction cs with
  | nil => rfl
  | cons c cs ih =>
    rw [List.mem_cons, not_or] at h
    have hc : escapeAttributeChar c = [c] := by
      unfold escapeAttributeChar
      split
      · exact absurd rfl h.1
      · rfl
    rw [List.flatMap_cons, hc, ih h.2, List.singleton_append]

/-- A value without quotes stands for itself. -/
theorem escapeAttribute_of_quote_notMem {s : String} (h : '"' ∉ s.toList) :
    escapeAttribute s = s := by
  rw [escapeAttribute, flatMap_escapeAttributeChar h, String.ofList_toList]

theorem moves_value {cs : List Char} (h : '"' ∉ cs) (name key : String)
    (attributes : List (String × String)) :
    Moves (.value name attributes key []) (cs ++ ['"'])
      (.closed name (attributes ++ [(key, String.ofList cs)])) [] := by
  have hread : Moves (.value name attributes key []) cs (.value name attributes key cs) [] := by
    refine moves_of_reads (fun c hc read => ?_) []
    have hne : c ≠ '"' := fun heq => h (heq ▸ hc)
    rw [step, if_neg hne]
  exact hread.append (moves_of_step (by rw [step, if_pos rfl]))

theorem moves_attribute {entry : String × String} (h : IsName entry.1) (name : String)
    (attributes : List (String × String)) :
    Moves (.closed name attributes) (attributeChars entry)
      (.closed name (attributes ++ [escaped entry])) [] := by
  have hblank : Moves (.closed name attributes) [' '] (.key name attributes []) [] :=
    moves_of_step rfl
  have hkey : Moves (.key name attributes []) entry.1.toList
      (.key name attributes entry.1.toList) [] := by
    refine moves_of_reads (fun c hc read => ?_) []
    rw [step, if_pos (h.2 c hc)]
  have hequals : Moves (.key name attributes entry.1.toList) ['=']
      (.equals name attributes entry.1) [] := by
    have hnot : ¬isNameChar '=' = true := by decide
    refine moves_of_step ?_
    rw [step, if_neg hnot, if_neg h.toList_ne_nil, if_pos rfl, String.ofList_toList]
  have hquote : Moves (.equals name attributes entry.1) ['"']
      (.value name attributes entry.1 []) [] := moves_of_step rfl
  have hvalue := moves_value (quote_notMem_escapeAttribute entry.2) name entry.1 attributes
  rw [String.ofList_toList] at hvalue
  have hchars : attributeChars entry = [' '] ++ (entry.1.toList ++ (['='] ++ (['"'] ++
      ((escapeAttribute entry.2).toList ++ ['"'])))) := by
    simp only [attributeChars, List.cons_append, List.nil_append]
  rw [hchars, escaped]
  exact hblank.append (hkey.append (hequals.append (hquote.append hvalue)))

theorem moves_attributes {entries : List (String × String)}
    (h : ∀ entry ∈ entries, IsName entry.1) (name : String) (attributes : List (String × String)) :
    Moves (.closed name attributes) (entries.flatMap attributeChars)
      (.closed name (attributes ++ entries.map escaped)) [] := by
  induction entries generalizing attributes with
  | nil =>
    rw [List.map_nil, List.append_nil]
    exact .nil _
  | cons entry entries ih =>
    obtain ⟨hentry, hentries⟩ := List.forall_mem_cons.1 h
    have hrest := ih hentries (attributes ++ [escaped entry])
    rw [List.append_assoc] at hrest
    exact (moves_attribute hentry name attributes).append hrest

/-- What opens the class attribute. -/
theorem moves_opening {tag : String} (h : IsTagName tag) :
    Moves .text ('<' :: tag.toList ++ " class=\"".toList) (.value tag [] "class" []) [] := by
  obtain ⟨c, cs, hname, hfirst, hothers⟩ := h.exists_cons
  have hslash : c ≠ '/' := by
    rintro rfl
    exact absurd hfirst (by decide)
  have hopened : Moves .text ['<'] .opened [] := moves_of_step rfl
  have hletter : Moves .opened [c] (.tag [c]) [] := by
    refine moves_of_step ?_
    rw [step, if_neg hslash, if_pos hfirst]
  have hread : Moves (.tag [c]) cs (.tag tag.toList) [] := by
    rw [hname]
    refine moves_of_reads (fun d hd read => ?_) [c]
    rw [step, if_pos (hothers d hd)]
  have hblank : Moves (.tag tag.toList) [' '] (.key tag [] []) [] := by
    have hstep : step (.tag tag.toList) ' ' = some (.key (String.ofList tag.toList) [] [], []) :=
      rfl
    rw [String.ofList_toList] at hstep
    exact moves_of_step hstep
  have hkey : Moves (.key tag [] []) "class".toList (.key tag [] "class".toList) [] := by
    refine moves_of_reads (fun d hd read => ?_) []
    have hchar : ∀ d ∈ "class".toList, isNameChar d = true := List.all_eq_true.1 (by decide)
    rw [step, if_pos (hchar d hd)]
  have hequals : Moves (.key tag [] "class".toList) ['='] (.equals tag [] "class") [] :=
    moves_of_step rfl
  have hquote : Moves (.equals tag [] "class") ['"'] (.value tag [] "class" []) [] :=
    moves_of_step rfl
  rw [hname]
  exact hopened.append (hletter.append (hread.append
    (hblank.append (hkey.append (hequals.append hquote)))))

theorem moves_closing {tag : String} (h : IsName tag) :
    Moves .text ('<' :: '/' :: tag.toList ++ ['>']) .text [.stop tag] := by
  have hopened : Moves .text ['<'] .opened [] := moves_of_step rfl
  have hslash : Moves .opened ['/'] (.stop []) [] := moves_of_step rfl
  have hread : Moves (.stop []) tag.toList (.stop tag.toList) [] := by
    refine moves_of_reads (fun d hd read => ?_) []
    rw [step, if_pos (h.2 d hd)]
  have hend : Moves (.stop tag.toList) ['>'] .text [.stop tag] := by
    have hstep : step (.stop tag.toList) '>' = some (.text, [.stop (String.ofList tag.toList)]) :=
      rfl
    rw [String.ofList_toList] at hstep
    exact moves_of_step hstep
  exact hopened.append (hslash.append (hread.append hend))

/-! ### Start tags that end early -/

/-- In a start tag with a name, behind attributes. -/
def Place.Within (name : String) (attributes : List (String × String)) : Place → Prop
  | .key other found _ | .equals other found _ | .value other found _ _ | .closed other found =>
    other = name ∧ attributes <+: found
  | _ => False

section

variable {name : String} {attributes : List (String × String)}

theorem within_of_stepBetween {found : List (String × String)} {c : Char} {next : Place}
    {tags : List Tag} (hfound : attributes <+: found)
    (h : stepBetween name found c = some (next, tags)) :
    (next.Within name attributes ∧ tags = []) ∨
      ∃ more, tags = [.start name (attributes ++ more)] := by
  unfold stepBetween at h
  split at h
  · cases h
    exact .inl ⟨⟨rfl, hfound⟩, rfl⟩
  split at h
  · cases h
    obtain ⟨more, rfl⟩ := hfound
    exact .inr ⟨more, rfl⟩
  · contradiction

/-- What has been read of a start tag stays until the tag ends. -/
theorem Place.Within.step {place next : Place} {c : Char} {tags : List Tag}
    (h : place.Within name attributes) (hstep : Markup.step place c = some (next, tags)) :
    (next.Within name attributes ∧ tags = []) ∨
      ∃ more, tags = [.start name (attributes ++ more)] := by
  cases place with
  | text | opened | tag _ | stop _ => exact h.elim
  | key other found read =>
    obtain ⟨rfl, hfound⟩ := h
    rw [Markup.step] at hstep
    split at hstep
    · cases hstep
      exact .inl ⟨⟨rfl, hfound⟩, rfl⟩
    split at hstep
    · exact within_of_stepBetween hfound hstep
    split at hstep
    · cases hstep
      exact .inl ⟨⟨rfl, hfound⟩, rfl⟩
    · contradiction
  | equals other found key =>
    obtain ⟨rfl, hfound⟩ := h
    rw [Markup.step] at hstep
    split at hstep
    · cases hstep
      exact .inl ⟨⟨rfl, hfound⟩, rfl⟩
    · contradiction
  | value other found key read =>
    obtain ⟨rfl, hfound⟩ := h
    rw [Markup.step] at hstep
    split at hstep
    · cases hstep
      exact .inl ⟨⟨rfl, hfound.trans (List.prefix_append _ _)⟩, rfl⟩
    · cases hstep
      exact .inl ⟨⟨rfl, hfound⟩, rfl⟩
  | closed other found =>
    obtain ⟨rfl, hfound⟩ := h
    exact within_of_stepBetween hfound hstep

theorem Place.Within.scan {place : Place} {cs : List Char} {tags : List Tag}
    (h : place.Within name attributes) (hscan : Markup.scan place cs = some tags) :
    ∃ more others, tags = .start name (attributes ++ more) :: others := by
  induction cs generalizing place tags with
  | nil =>
    cases place with
    | text => exact h.elim
    | _ => contradiction
  | cons c cs ih =>
    rw [Markup.scan] at hscan
    split at hscan
    · contradiction
    · rename_i next first hstep
      obtain ⟨found, hfound, rfl⟩ := Option.map_eq_some_iff.1 hscan
      rcases h.step hstep with ⟨hnext, rfl⟩ | ⟨more, rfl⟩
      · exact ih hnext hfound
      · exact ⟨more, found, rfl⟩

end

/-- The value that is read of an attribute ends at the first quote, so it is another one. -/
theorem strays_value {s : String} (h : '"' ∈ s.toList) (name key : String)
    (attributes more : List (String × String)) :
    Strays (.value name attributes key []) s.toList
      [.start name (attributes ++ escaped (key, s) :: more)] := by
  obtain ⟨front, back, hsplit, hfront⟩ := List.eq_append_cons_of_mem h
  intro rest others hscan
  rw [hsplit, List.append_assoc, List.cons_append, List.append_cons front, moves_value hfront]
    at hscan
  obtain ⟨found, hfound, htags⟩ := Option.map_eq_some_iff.1 hscan
  have hwithin : (Place.closed name (attributes ++ [(key, String.ofList front)])).Within name
      (attributes ++ [(key, String.ofList front)]) := ⟨rfl, List.prefix_rfl⟩
  obtain ⟨later, last, rfl⟩ := hwithin.scan hfound
  obtain ⟨hstart, -⟩ := List.cons.inj htags
  obtain ⟨-, hattributes⟩ := Tag.start.inj hstart
  rw [List.append_assoc] at hattributes
  obtain ⟨hentry, -⟩ := List.cons.inj (List.append_cancel_left hattributes)
  have hvalue : front = s.toList.flatMap escapeAttributeChar :=
    String.ofList_injective (Prod.mk.inj hentry).2
  rw [hsplit, List.flatMap_append, flatMap_escapeAttributeChar hfront] at hvalue
  -- behind `front` the escaped value goes on with the quote's entity
  have hentity : ('"' :: back).flatMap escapeAttributeChar = [] :=
    List.self_eq_append_right.1 hvalue
  contradiction

/-! ### Elements -/

/-- With a condition, scanning `cs` gives `tags`; without it, it does not. -/
def Settles (fine : Prop) (place : Place) (cs : List Char) (next : Place) (tags : List Tag) :
    Prop :=
  (fine → Moves place cs next tags) ∧ (¬fine → Strays place cs tags)

theorem Moves.settles {place next : Place} {cs : List Char} {tags : List Tag}
    (h : Moves place cs next tags) : Settles True place cs next tags :=
  ⟨fun _ => h, fun hnot => absurd trivial hnot⟩

theorem Settles.append {fine more : Prop} {place mid next : Place} {cs ds : List Char}
    {tags others : List Tag} (h : Settles fine place cs mid tags)
    (hmore : Settles more mid ds next others) :
    Settles (fine ∧ more) place (cs ++ ds) next (tags ++ others) := by
  refine ⟨fun hboth => (h.1 hboth.1).append (hmore.1 hboth.2), fun hnot => ?_⟩
  by_cases hfine : fine
  · have hother : ¬more := fun hyes => hnot ⟨hfine, hyes⟩
    exact (h.1 hfine).strays (hmore.2 hother)
  · exact (h.2 hfine).append ds others

theorem Settles.congr {fine other : Prop} {place next : Place} {cs : List Char} {tags : List Tag}
    (h : Settles fine place cs next tags) (hiff : other ↔ fine) :
    Settles other place cs next tags :=
  ⟨fun hother => h.1 (hiff.1 hother), fun hnot => h.2 (mt hiff.2 hnot)⟩

/-- The tags of an element with the given classes, around those inside. -/
def elementTags (tag : String) (classes : List String) (attributes : Table String)
    (inside : List Tag) : List Tag :=
  .start tag (escaped ("class", String.intercalate " " classes) ::
    attributes.entries.map escaped) :: inside ++ [.stop tag]

theorem moves_start {tag : String} (htag : IsTagName tag) {s : String} (h : '"' ∉ s.toList)
    {entries : List (String × String)} (hentries : ∀ entry ∈ entries, IsName entry.1) :
    Moves .text ('<' :: tag.toList ++ " class=\"".toList ++
        (s.toList ++ ('"' :: (entries.flatMap attributeChars ++ ['>']))))
      .text [.start tag (escaped ("class", s) :: entries.map escaped)] := by
  have hvalue := moves_value h tag "class" []
  rw [String.ofList_toList] at hvalue
  have hothers := moves_attributes hentries tag [("class", s)]
  have hend : Moves (.closed tag ([("class", s)] ++ entries.map escaped)) ['>'] .text
      [.start tag ([("class", s)] ++ entries.map escaped)] := moves_of_step rfl
  have hall := (moves_opening htag).append (hvalue.append (hothers.append hend))
  rw [escaped, escapeAttribute_of_quote_notMem h]
  simpa using hall

theorem settles_start {tag : String} (htag : IsTagName tag) (s : String)
    {entries : List (String × String)} (hentries : ∀ entry ∈ entries, IsName entry.1) :
    Settles ('"' ∉ s.toList) .text ('<' :: tag.toList ++ " class=\"".toList ++
        (s.toList ++ ('"' :: (entries.flatMap attributeChars ++ ['>']))))
      .text [.start tag (escaped ("class", s) :: entries.map escaped)] := by
  refine ⟨fun h => moves_start htag h hentries, fun h => ?_⟩
  have hvalue := strays_value (not_not.1 h) tag "class" [] (entries.map escaped)
  exact (moves_opening htag).strays
    (hvalue.append ('"' :: (entries.flatMap attributeChars ++ ['>'])) [])

theorem toList_element_attributes (env : WrapEnv) :
    (element env).toList =
      '<' :: env.tag.toList ++ " class=\"".toList ++
          ((String.intercalate " " env.classes).toList ++
            ('"' :: (env.attributes.entries.flatMap attributeChars ++ ['>']))) ++
        (env.content.toList ++ ('<' :: '/' :: env.tag.toList ++ ['>'])) := by
  have hquote : "\"".toList = ['"'] := rfl
  have hopen : "<".toList = ['<'] := rfl
  have hslash : "</".toList = ['<', '/'] := rfl
  have hend : ">".toList = ['>'] := rfl
  simp only [element, String.toList_append, toList_attributes, hquote, hopen, hslash, hend,
    List.append_assoc, List.cons_append, List.nil_append]

theorem settles_element (env : WrapEnv) (htag : IsTagName env.tag)
    (hentries : ∀ entry ∈ env.attributes.entries, IsName entry.1) {fine : Prop} {tags : List Tag}
    (hcontent : Settles fine .text env.content.toList .text tags) :
    Settles ('"' ∉ (String.intercalate " " env.classes).toList ∧ fine) .text (element env).toList
      .text (elementTags env.tag env.classes env.attributes tags) := by
  have hstart := settles_start htag (String.intercalate " " env.classes) hentries
  have hstop := (moves_closing htag.1).settles
  rw [toList_element_attributes]
  exact (hstart.append (hcontent.append hstop)).congr (by rw [and_true])

/-! ### Callbacks that add attributes -/

variable {σ : Type}

/-- A callback that only adds attributes, and under names only. -/
def OnlyAdds (hook : Hook WrapEnv σ) : Prop :=
  ∀ env st, ∃ added, (∀ entry ∈ added, IsName entry.1) ∧
    (hook env st).1 = { env with attributes := env.attributes.putAll added }

theorem exists_runAll {hooks : List (Hook WrapEnv σ)} (h : ∀ hook ∈ hooks, OnlyAdds hook)
    {env : WrapEnv} (henv : ∀ entry ∈ env.attributes.entries, IsName entry.1) (st : σ) :
    ∃ left : Table String, (∀ entry ∈ left.entries, IsName entry.1) ∧
      (HookRegistry.runAll hooks env st).1 = { env with attributes := left } := by
  induction hooks generalizing env st with
  | nil => exact ⟨env.attributes, henv, rfl⟩
  | cons hook hooks ih =>
    obtain ⟨hhook, hhooks⟩ := List.forall_mem_cons.1 h
    obtain ⟨added, hadded, hrun⟩ := hhook env st
    have hboth : ∀ entry ∈ (hook env st).1.attributes.entries, IsName entry.1 := by
      rw [hrun]
      intro entry hentry
      exact (Table.mem_putAll hentry).elim (henv entry) (hadded entry)
    obtain ⟨left, hleft, hall⟩ := ih hhooks hboth (hook env st).2
    refine ⟨left, hleft, ?_⟩
    rw [HookRegistry.runAll_cons, hall, hrun]

/-! ### Token trees -/

mutual

/-- The tags that a node should have: a token has a start tag and an end tag around the tags in it,
    with its classes and the attributes that the callbacks leave it with. -/
def nodeTags (config : RenderConfig) (hooks : HookRegistry WrapEnv σ) (language : String) (st : σ) :
    Node → List Tag
  | .text _ => []
  | .token (.mk kind content aliases length) =>
    let t : Token := .mk kind content aliases length
    let (inside, mid) := renderContent config hooks language st content
    let left := (hooks.run Stage.wrap.name (wrapEnv config language t inside) mid).1
    elementTags config.tag (classes config t) left.attributes
      (contentTags config hooks language st content)

/-- The tags that should be in a token. -/
def contentTags (config : RenderConfig) (hooks : HookRegistry WrapEnv σ) (language : String)
    (st : σ) : Content → List Tag
  | .text _ => []
  | .nested nodes => treeTags config hooks language st nodes

/-- The tags that a token tree should have. -/
def treeTags (config : RenderConfig) (hooks : HookRegistry WrapEnv σ) (language : String)
    (st : σ) : List Node → List Tag
  | [] => []
  | node :: nodes =>
    nodeTags config hooks language st node ++
      treeTags config hooks language (renderNode config hooks language "" st node).2 nodes

end

/-- A token without a quote in its classes. -/
def Unquoted (config : RenderConfig) (t : Token) : Prop :=
  ∀ name ∈ classes config t, '"' ∉ name.toList

theorem mem_intercalate {c : Char} {names : List String} {name : String} (hname : name ∈ names)
    (hc : c ∈ name.toList) : c ∈ (String.intercalate " " names).toList := by
  have hjoin : ∀ parts : List (List Char), name.toList ∈ parts → c ∈ [' '].intercalate parts := by
    intro parts hparts
    induction parts with
    | nil => contradiction
    | cons part rest ih =>
      cases rest with
      | nil => rwa [List.intercalate_singleton, ← List.mem_singleton.1 hparts]
      | cons next rest =>
        rw [List.intercalate_cons_cons, List.mem_append, List.mem_append]
        rcases List.mem_cons.1 hparts with rfl | hrest
        · exact .inl (.inl hc)
        · exact .inr (ih hrest)
  rw [String.toList_intercalate]
  exact hjoin _ (List.mem_map_of_mem hname)

theorem unquoted_iff (config : RenderConfig) (t : Token) :
    Unquoted config t ↔ '"' ∉ (String.intercalate " " (classes config t)).toList :=
  ⟨notMem_intercalate (by decide), fun h _ hname hc => h (mem_intercalate hname hc)⟩

section

variable {config : RenderConfig} {hooks : HookRegistry WrapEnv σ}

mutual

theorem exists_settles_node (htag : IsTagName config.tag)
    (hhooks : ∀ hook ∈ hooks.get Stage.wrap.name, OnlyAdds hook) (language : String) (node : Node)
    (st : σ) : ∃ markup last,
      (∀ out, renderNode config hooks language out st node = (out ++ markup, last)) ∧
      Settles (∀ t ∈ node.tokens, Unquoted config t) .text markup.toList .text
        (nodeTags config hooks language st node) := by
  match node with
  | .text s =>
    refine ⟨escape s, st, fun out => ?_, ?_⟩
    · rw [renderNode]
    · rw [nodeTags]
      refine (moves_text (lt_notMem_escape s)).settles.congr (iff_true_intro ?_)
      exact fun t ht => absurd ht List.not_mem_nil
  | .token (.mk kind content aliases length) =>
    obtain ⟨inside, mid, hcontent, hsettles⟩ :=
      exists_settles_content htag hhooks language content st
    let t : Token := .mk kind content aliases length
    let seen := wrapEnv config language t inside
    have hnone : ∀ entry ∈ seen.attributes.entries, IsName entry.1 :=
      fun entry hentry => absurd hentry List.not_mem_nil
    obtain ⟨left, hleft, hall⟩ := exists_runAll hhooks hnone mid
    have hrun : (hooks.run Stage.wrap.name seen mid).1 = { seen with attributes := left } := hall
    have htokens : Node.tokens (.token t) = content.tokens ++ [t] := rfl
    refine ⟨element { seen with attributes := left }, (hooks.run Stage.wrap.name seen mid).2,
      fun out => ?_, ?_⟩
    · rw [renderNode, hcontent]
      dsimp only
      rw [hrun]
    · rw [nodeTags, hcontent]
      dsimp only
      rw [hrun, htokens]
      refine (settles_element { seen with attributes := left } htag hleft hsettles).congr ?_
      rw [List.forall_mem_append, List.forall_mem_singleton, unquoted_iff, and_comm]
      rfl

theorem exists_settles_content (htag : IsTagName config.tag)
    (hhooks : ∀ hook ∈ hooks.get Stage.wrap.name, OnlyAdds hook) (language : String)
    (content : Content) (st : σ) : ∃ markup last,
      renderContent config hooks language st content = (markup, last) ∧
      Settles (∀ t ∈ content.tokens, Unquoted config t) .text markup.toList .text
        (contentTags config hooks language st content) := by
  match content with
  | .text s =>
    refine ⟨escape s, st, ?_, ?_⟩
    · rw [renderContent]
    · rw [contentTags]
      refine (moves_text (lt_notMem_escape s)).settles.congr (iff_true_intro ?_)
      exact fun t ht => absurd ht List.not_mem_nil
  | .nested nodes =>
    obtain ⟨markup, last, hrender, hsettles⟩ := exists_settles_tree htag hhooks language nodes st
    refine ⟨markup, last, ?_, ?_⟩
    · rw [renderContent, hrender, String.empty_append]
    · rw [contentTags]
      exact hsettles

theorem exists_settles_tree (htag : IsTagName config.tag)
    (hhooks : ∀ hook ∈ hooks.get Stage.wrap.name, OnlyAdds hook) (language : String)
    (nodes : List Node) (st : σ) : ∃ markup last,
      (∀ out, renderNodes config hooks language out st nodes = (out ++ markup, last)) ∧
      Settles (∀ t ∈ tokensAll nodes, Unquoted config t) .text markup.toList .text
        (treeTags config hooks language st nodes) := by
  match nodes with
  | [] =>
    refine ⟨"", st, fun out => ?_, ?_⟩
    · rw [renderNodes, String.append_empty]
    · rw [treeTags]
      refine (Moves.nil .text).settles.congr (iff_true_intro ?_)
      exact fun t ht => absurd ht List.not_mem_nil
  | node :: nodes =>
    obtain ⟨first, mid, hfirst, hfirstSettles⟩ :=
      exists_settles_node htag hhooks language node st
    obtain ⟨others, last, hothers, hothersSettles⟩ :=
      exists_settles_tree htag hhooks language nodes mid
    refine ⟨first ++ others, last, fun out => ?_, ?_⟩
    · rw [renderNodes, hfirst]
      dsimp only
      rw [hothers, String.append_assoc]
    · rw [treeTags, hfirst, String.toList_append]
      refine (hfirstSettles.append hothersSettles).congr ?_
      rw [tokensAll, List.forall_mem_append]

end

end

/-- Markup has the tags of the tree, one start tag and one end tag for each token around those in
    it and each start tag with the classes and the added attributes, just when no class has a
    quote. -/
theorem scanTags_render_eq_iff {config : RenderConfig} {hooks : HookRegistry WrapEnv σ}
    (htag : IsTagName config.tag)
    (hhooks : ∀ hook ∈ hooks.get Stage.wrap.name, OnlyAdds hook) (language : String)
    (nodes : List Node) (st : σ) :
    scanTags (render config hooks language nodes st).1 =
        some (treeTags config hooks language st nodes) ↔
      ∀ t ∈ tokensAll nodes, ∀ name ∈ classes config t, '"' ∉ name.toList := by
  obtain ⟨markup, last, hrender, hmoves, hstrays⟩ :=
    exists_settles_tree htag hhooks language nodes st
  have hmarkup : (render config hooks language nodes st).1 = markup := by
    rw [render, hrender, String.empty_append]
  rw [hmarkup, scanTags]
  constructor
  · intro hscan
    by_contra hnot
    refine hstrays hnot [] [] ?_
    rw [List.append_nil, List.append_nil]
    exact hscan
  · intro hfine
    have hscan := hmoves hfine []
    rw [List.append_nil] at hscan
    rw [hscan, scan, Option.map_some, List.append_nil]

/-- Gives each token a title with quotes. -/
def titling : HookRegistry WrapEnv Unit :=
  HookRegistry.empty.add Stage.wrap.name fun env st =>
    ({ env with attributes := env.attributes.putAll [("title", "\"" ++ env.kind ++ "\"")] }, st)

theorem onlyAdds_titling : ∀ hook ∈ titling.get Stage.wrap.name, OnlyAdds hook := by
  intro hook hmem
  obtain rfl := List.mem_singleton.1 hmem
  intro env st
  have hname : IsName "title" := by decide
  exact ⟨[("title", "\"" ++ env.kind ++ "\"")], List.forall_mem_singleton.2 hname, rfl⟩

/-- A token in another one. -/
def bracketed : List Node :=
  [.token (.mk "group" (.nested [.text "<", .token (.mk "name" (.text "a\"b") ["word"] 3)]) [] 4)]

theorem scanTags_render_eq_titling :
    (IsTagName "span" ∧ ∀ hook ∈ titling.get Stage.wrap.name, OnlyAdds hook) ∧
      scanTags (render {} titling "none" bracketed ()).1 =
        some [.start "span" [("class", "token group"), ("title", "&quot;group&quot;")],
          .start "span" [("class", "token name word"), ("title", "&quot;name&quot;")],
          .stop "span", .stop "span"] := by
  have htag : IsTagName "span" := by decide
  have hfine : ∀ t ∈ tokensAll bracketed, ∀ name ∈ classes {} t, '"' ∉ name.toList := by decide
  have hscan := (scanTags_render_eq_iff htag onlyAdds_titling "none" bracketed ()).2 hfine
  exact ⟨⟨htag, onlyAdds_titling⟩, hscan.trans (by decide +kernel)⟩

/-- A kind with quotes makes an attribute of its own. -/
theorem scanTags_render_ne_quoted :
    let nodes : List Node := [.token (.mk "x\" onclick=\"f()" (.text "a") [] 1)]
    let hooks : HookRegistry WrapEnv Unit := .empty
    scanTags (render {} hooks "none" nodes ()).1 =
        some [.start "span" [("class", "token x"), ("onclick", "f()")], .stop "span"] ∧
      scanTags (render {} hooks "none" nodes ()).1 ≠ some (treeTags {} hooks "none" () nodes) := by
  decide +kernel

end Markup

end SyntaxHue
