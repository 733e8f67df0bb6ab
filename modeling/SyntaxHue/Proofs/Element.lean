import SyntaxHue.Element
import SyntaxHue.Proofs.Text.Blank
import SyntaxHue.Proofs.Text.Lower
import Mathlib.Data.List.TakeWhile

/-!
# The classes of an element

A class attribute declares a language where it matches `\blang(?:uage)?-([\w-]+)\b`, in either
case of the letters. No match goes across a blank, so that the search through the whole attribute
and the search through each class find the same. The class that an element gets for its language
is read back as the same language, since the name is in lower case and made of word characters.
-/

namespace SyntaxHue

namespace LanguageClass

/-! ### Matches -/

/-- Whether a text ends in a word. -/
def endsInWord (cs : List Char) : Bool :=
  cs.getLast?.any isWord

/-- Whether a text starts with a word. -/
def startsInWord (cs : List Char) : Bool :=
  cs.head?.any isWord

/-- There is a word boundary between `before` and `after`. -/
def Boundary (before after : List Char) : Prop :=
  endsInWord before ≠ startsInWord after

/-- `word`, a hyphen and `name` match, between `before` and `after`. -/
structure Match (before word name after : List Char) : Prop where
  lang : word.map Char.toLower = ['l', 'a', 'n', 'g'] ∨
    word.map Char.toLower = ['l', 'a', 'n', 'g', 'u', 'a', 'g', 'e']
  opens : Boundary before word
  name_ne_nil : name ≠ []
  chars : ∀ c ∈ name, isNameChar c = true
  closes : Boundary name after

/-- There is a match in `cs`. -/
def Declares (cs : List Char) : Prop :=
  ∃ before word name after, cs = before ++ (word ++ '-' :: (name ++ after)) ∧
    Match before word name after

/-! ### Names -/

/-- A name as it is found: it ends in a word character. -/
structure IsName (name : List Char) : Prop where
  chars : ∀ c ∈ name, isNameChar c = true
  ends : endsInWord name = true

theorem isNameChar_iff {c : Char} : isNameChar c = true ↔ isWord c = true ∨ c = '-' := by
  rw [isNameChar, Bool.or_eq_true, decide_eq_true_eq]

theorem not_isWord_hyphen : isWord '-' = false := by
  decide

theorem endsInWord_concat (cs : List Char) (c : Char) : endsInWord (cs ++ [c]) = isWord c := by
  rw [endsInWord, List.getLast?_concat, Option.any_some]

/-- Hyphens come off the end of a text. -/
theorem exists_dropHyphens (cs : List Char) : ∃ hyphens, cs = dropHyphens cs ++ hyphens ∧
    (∀ c ∈ hyphens, c = '-') ∧ (dropHyphens cs).getLast? ≠ some '-' := by
  refine ⟨(cs.reverse.takeWhile (· = '-')).reverse, ?_, fun c hc => ?_, ?_⟩
  · rw [dropHyphens, ← List.reverse_append, List.takeWhile_append_dropWhile, List.reverse_reverse]
  · have := List.mem_takeWhile_imp (List.mem_reverse.1 hc)
    simpa using this
  · intro hlast
    rw [dropHyphens, List.getLast?_reverse] at hlast
    have := List.head?_dropWhile_not (· = '-') cs.reverse
    rw [hlast] at this
    simp at this

theorem exists_of_endsInWord {cs : List Char} (h : endsInWord cs = true) :
    ∃ front c, cs = front ++ [c] ∧ isWord c = true := by
  rcases List.eq_nil_or_concat' cs with rfl | ⟨front, c, rfl⟩
  · contradiction
  · exact ⟨front, c, rfl, by rwa [endsInWord_concat] at h⟩

/-- A name that is found is followed by hyphens and what is no part of a name. -/
theorem exists_of_name? {cs name : List Char} (h : name? cs = some name) :
    IsName name ∧ ∃ after, cs = name ++ after ∧ startsInWord after = false := by
  obtain ⟨hyphens, hcut, hhyphens, hlast⟩ := exists_dropHyphens (cs.takeWhile isNameChar)
  have hname : name ≠ [] ∧ dropHyphens (cs.takeWhile isNameChar) = name := by
    rw [name?] at h
    split at h
    · contradiction
    · rename_i hne
      obtain rfl := Option.some.inj h
      exact ⟨hne, rfl⟩
  obtain ⟨hne, heq⟩ := hname
  rw [heq] at hcut hlast
  have hchars : ∀ c ∈ name, isNameChar c = true := fun c hc =>
    List.mem_takeWhile_imp (hcut ▸ List.mem_append_left hyphens hc)
  refine ⟨⟨hchars, ?_⟩, hyphens ++ cs.dropWhile isNameChar, ?_, ?_⟩
  · obtain ⟨front, c, rfl⟩ := (List.eq_nil_or_concat' name).resolve_left hne
    rw [endsInWord_concat]
    have hc := isNameChar_iff.1 (hchars c (by simp))
    refine hc.resolve_right fun hhyphen => hlast ?_
    rw [hhyphen, List.getLast?_concat]
  · rw [← List.append_assoc, ← hcut, List.takeWhile_append_dropWhile]
  · rw [startsInWord]
    cases hyphens with
    | cons c hyphens =>
      rw [hhyphens c List.mem_cons_self]
      exact not_isWord_hyphen
    | nil =>
      have hnot := List.head?_dropWhile_not isNameChar cs
      rw [List.nil_append]
      cases hhead : (cs.dropWhile isNameChar).head? with
      | none => rfl
      | some c =>
        rw [hhead] at hnot
        have hc : isNameChar c = false := hnot
        rw [← Bool.not_eq_true, isNameChar_iff, not_or] at hc
        exact Bool.eq_false_iff.2 hc.1

/-- There is a name where word characters and hyphens end at a word boundary. -/
theorem isSome_name? {name after : List Char} (hne : name ≠ [])
    (hchars : ∀ c ∈ name, isNameChar c = true) (hcloses : Boundary name after) :
    (name? (name ++ after)).isSome = true := by
  obtain ⟨hyphens, hcut, hhyphens, -⟩ := exists_dropHyphens ((name ++ after).takeWhile isNameChar)
  -- one of the characters is no hyphen: the last of the name or the one behind it
  have hword : ∃ c ∈ (name ++ after).takeWhile isNameChar, isWord c = true := by
    rw [List.takeWhile_append_of_pos hchars]
    cases hends : endsInWord name with
    | true =>
      obtain ⟨front, c, rfl, hc⟩ := exists_of_endsInWord hends
      exact ⟨c, by simp, hc⟩
    | false =>
      rw [Boundary, hends] at hcloses
      cases after with
      | nil => exact absurd rfl hcloses
      | cons c after =>
        have hc : isWord c = true := Bool.of_not_eq_false (Ne.symm hcloses)
        have hnameChar : isNameChar c = true := isNameChar_iff.2 (.inl hc)
        refine ⟨c, List.mem_append_right name ?_, hc⟩
        rw [List.takeWhile_cons_of_pos hnameChar]
        exact List.mem_cons_self
  rw [name?]
  split
  · rename_i hnil
    obtain ⟨c, hc, hcword⟩ := hword
    rw [hcut, hnil, List.nil_append] at hc
    rw [hhyphens c hc, not_isWord_hyphen] at hcword
    contradiction
  · rfl

/-! ### Declarations at a place -/

theorem afterWord?_append {word cs : List Char} (h : cs.map Char.toLower = word)
    (rest : List Char) : afterWord? word (cs ++ rest) = some rest := by
  subst h
  induction cs with
  | nil => rfl
  | cons c cs ih => rw [List.map_cons, List.cons_append, afterWord?, if_pos rfl, ih]

theorem exists_of_afterWord? {word cs rest : List Char} (h : afterWord? word cs = some rest) :
    ∃ front, cs = front ++ rest ∧ front.map Char.toLower = word := by
  induction word generalizing cs with
  | nil => exact ⟨[], Option.some.inj h, rfl⟩
  | cons w word ih =>
    cases cs with
    | nil => contradiction
    | cons c cs =>
      rw [afterWord?] at h
      split at h
      · rename_i hc
        obtain ⟨front, rfl, rfl⟩ := ih h
        exact ⟨c :: front, rfl, by rw [List.map_cons, hc]⟩
      · contradiction

/-- What is declared at a place is a name in a match there. -/
theorem exists_of_declared? {cs name : List Char} (h : declared? cs = some name) :
    IsName name ∧ ∃ word after, cs = word ++ '-' :: (name ++ after) ∧
      (word.map Char.toLower = ['l', 'a', 'n', 'g'] ∨
        word.map Char.toLower = ['l', 'a', 'n', 'g', 'u', 'a', 'g', 'e']) ∧
      startsInWord after = false := by
  rw [declared?] at h
  split at h
  · contradiction
  · rename_i rest hlang
    obtain ⟨lang, rfl, hlower⟩ := exists_of_afterWord? hlang
    split at h
    · rename_i behind hbehind
      obtain ⟨hname, after, rfl, hafter⟩ := exists_of_name? h
      refine ⟨hname, ?_⟩
      cases huage : afterWord? ['u', 'a', 'g', 'e'] rest with
      | none =>
        rw [huage, Option.getD_none] at hbehind
        exact ⟨lang, after, by rw [hbehind], .inl hlower, hafter⟩
      | some short =>
        obtain ⟨uage, rfl, hlower'⟩ := exists_of_afterWord? huage
        rw [huage, Option.getD_some] at hbehind
        refine ⟨lang ++ uage, after, ?_, .inr ?_, hafter⟩
        · rw [hbehind, List.append_assoc]
        · rw [List.map_append, hlower, hlower']
          rfl
    · contradiction

/-- A language is declared where there is a match. -/
theorem isSome_declared? {word name after : List Char}
    (hword : word.map Char.toLower = ['l', 'a', 'n', 'g'] ∨
      word.map Char.toLower = ['l', 'a', 'n', 'g', 'u', 'a', 'g', 'e'])
    (hne : name ≠ []) (hchars : ∀ c ∈ name, isNameChar c = true)
    (hcloses : Boundary name after) :
    (declared? (word ++ '-' :: (name ++ after))).isSome = true := by
  rw [declared?]
  rcases hword with hlang | hlanguage
  · rw [afterWord?_append hlang]
    exact isSome_name? hne hchars hcloses
  · obtain ⟨lang, uage, rfl, hlang, huage⟩ : ∃ lang uage, word = lang ++ uage ∧
        lang.map Char.toLower = ['l', 'a', 'n', 'g'] ∧
        uage.map Char.toLower = ['u', 'a', 'g', 'e'] := List.map_eq_append_iff.1 hlanguage
    rw [List.append_assoc, afterWord?_append hlang]
    dsimp only
    rw [afterWord?_append huage]
    exact isSome_name? hne hchars hcloses

/-- The words of a match start with a word character. -/
theorem startsInWord_of_lang {word : List Char}
    (hword : word.map Char.toLower = ['l', 'a', 'n', 'g'] ∨
      word.map Char.toLower = ['l', 'a', 'n', 'g', 'u', 'a', 'g', 'e']) :
    startsInWord word = true := by
  obtain ⟨c, rest, rfl, hc⟩ : ∃ c rest, word = c :: rest ∧ c.toLower = 'l' := by
    cases word with
    | nil => rcases hword with h | h <;> contradiction
    | cons c rest => rcases hword with h | h <;> exact ⟨c, rest, rfl, (List.cons.inj h).1⟩
  by_cases hascii : c.toNat < 128
  · have hletter : c.toLower = 'l' → isWord c = true := by
      apply forall_ascii c _ hascii
      decide
    exact hletter hc
  · rw [toLower_eq_self (by omega)] at hc
    exact absurd (by rw [hc]; decide) hascii

/-! ### The search for a declaration -/

theorem foldl_isWord (cs : List Char) :
    cs.foldl (fun _ c => isWord c) false = endsInWord cs := by
  rcases List.eq_nil_or_concat' cs with rfl | ⟨front, c, rfl⟩
  · rfl
  · rw [List.foldl_append, endsInWord_concat]
    rfl

theorem exists_of_search {inWord : Bool} {cs name : List Char} (h : search inWord cs = some name) :
    ∃ before rest, cs = before ++ rest ∧ before.foldl (fun _ c => isWord c) inWord = false ∧
      declared? rest = some name := by
  induction cs generalizing inWord with
  | nil => contradiction
  | cons c cs ih =>
    rw [search] at h
    split at h
    · rename_i found hfound
      obtain rfl := Option.some.inj h
      cases inWord with
      | true => contradiction
      | false => exact ⟨[], c :: cs, rfl, rfl, hfound⟩
    · obtain ⟨before, rest, rfl, hbefore, hrest⟩ := ih h
      exact ⟨c :: before, rest, rfl, hbefore, hrest⟩

theorem isSome_search {inWord : Bool} {before rest : List Char}
    (hbefore : before.foldl (fun _ c => isWord c) inWord = false)
    (hrest : (declared? rest).isSome = true) : (search inWord (before ++ rest)).isSome = true := by
  induction before generalizing inWord with
  | nil =>
    obtain rfl : inWord = false := hbefore
    cases rest with
    | nil => contradiction
    | cons c cs =>
      obtain ⟨name, hname⟩ := Option.isSome_iff_exists.1 hrest
      rw [List.nil_append, search, if_neg Bool.false_ne_true, hname]
      rfl
  | cons c before ih =>
    rw [List.cons_append, search]
    split
    · rfl
    · exact ih hbefore

/-- What is found is the name in a match. -/
theorem exists_of_find? {cs name : List Char} (h : find? cs = some name) :
    IsName name ∧ ∃ before word after, cs = before ++ (word ++ '-' :: (name ++ after)) ∧
      Match before word name after := by
  obtain ⟨before, rest, rfl, hbefore, hrest⟩ := exists_of_search h
  obtain ⟨hname, word, after, rfl, hlang, hafter⟩ := exists_of_declared? hrest
  rw [foldl_isWord] at hbefore
  refine ⟨hname, before, word, after, rfl, hlang, ?_, ?_, hname.chars, ?_⟩
  · rw [Boundary, hbefore, startsInWord_of_lang hlang]
    exact Bool.false_ne_true
  · rintro rfl
    exact absurd hname.ends (by decide)
  · rw [Boundary, hname.ends, hafter]
    exact Ne.symm Bool.false_ne_true

example : find? "block Lang-JS".toList = some "JS".toList := by decide +kernel
example : find? "slang-a language-c--".toList = some "c".toList := by decide +kernel

/-- The search finds something exactly if there is a match. -/
theorem isSome_find?_iff {cs : List Char} : (find? cs).isSome = true ↔ Declares cs := by
  constructor
  · intro h
    obtain ⟨name, hname⟩ := Option.isSome_iff_exists.1 h
    obtain ⟨-, before, word, after, hcs, hmatch⟩ := exists_of_find? hname
    exact ⟨before, word, name, after, hcs, hmatch⟩
  · rintro ⟨before, word, name, after, rfl, hmatch⟩
    have hopens := hmatch.opens
    rw [Boundary, startsInWord_of_lang hmatch.lang, ← foldl_isWord] at hopens
    exact isSome_search (Bool.eq_false_iff.2 hopens)
      (isSome_declared? hmatch.lang hmatch.name_ne_nil hmatch.chars hmatch.closes)

instance (cs : List Char) : Decidable (Declares cs) :=
  decidable_of_iff ((find? cs).isSome = true) isSome_find?_iff

/-! ### Searching class by class -/

theorem afterWord?_append_space {word : List Char} (hword : ' ' ∉ word) (cs rest : List Char) :
    afterWord? word (cs ++ ' ' :: rest) = (afterWord? word cs).map (· ++ ' ' :: rest) := by
  induction word generalizing cs with
  | nil => rfl
  | cons w word ih =>
    rw [List.mem_cons, not_or] at hword
    cases cs with
    | nil =>
      change (if ' '.toLower = w then afterWord? word rest else none) = none
      exact if_neg hword.1
    | cons c cs =>
      rw [List.cons_append, afterWord?, afterWord?]
      split
      · exact ih hword.2 cs
      · rfl

theorem name?_append_space (cs rest : List Char) : name? (cs ++ ' ' :: rest) = name? cs := by
  have hsame : (cs ++ ' ' :: rest).takeWhile isNameChar = cs.takeWhile isNameChar := by
    induction cs with
    | nil =>
      have hspace : ¬ isNameChar ' ' = true := by decide
      rw [List.nil_append, List.takeWhile_cons_of_neg hspace]
      rfl
    | cons c cs ih => rw [List.cons_append, List.takeWhile_cons, List.takeWhile_cons, ih]
  rw [name?, name?, hsame]

/-- What is declared at a place does not depend on what is behind a space. -/
theorem declared?_append_space (cs rest : List Char) :
    declared? (cs ++ ' ' :: rest) = declared? cs := by
  rw [declared?, declared?, afterWord?_append_space (by decide)]
  cases afterWord? ['l', 'a', 'n', 'g'] cs with
  | none => rfl
  | some cs =>
    rw [Option.map_some]
    dsimp only
    rw [afterWord?_append_space (by decide)]
    have hgetD : ((afterWord? ['u', 'a', 'g', 'e'] cs).map (· ++ ' ' :: rest)).getD
        (cs ++ ' ' :: rest) = (afterWord? ['u', 'a', 'g', 'e'] cs).getD cs ++ ' ' :: rest := by
      cases afterWord? ['u', 'a', 'g', 'e'] cs <;> rfl
    rw [hgetD]
    cases (afterWord? ['u', 'a', 'g', 'e'] cs).getD cs with
    | nil => rfl
    | cons c cs =>
      by_cases hc : c = '-'
      · subst hc
        exact name?_append_space cs rest
      · rw [List.cons_append]
        split
        · rename_i heq
          exact absurd (List.cons.inj heq).1 hc
        · split
          · rename_i heq
            exact absurd (List.cons.inj heq).1 hc
          · rfl

/-- The search finds what is in front of a space, or what is behind it. -/
theorem search_append_space (inWord : Bool) (cs rest : List Char) :
    search inWord (cs ++ ' ' :: rest) = (search inWord cs).or (search false rest) := by
  induction cs generalizing inWord with
  | nil =>
    have hspace : declared? (' ' :: rest) = none := declared?_append_space [] rest
    have hstep : search inWord (' ' :: rest) = search (isWord ' ') rest := by
      rw [search, hspace, ite_self]
    rw [List.nil_append, hstep]
    rfl
  | cons c cs ih =>
    rw [List.cons_append, search, search, ← List.cons_append, declared?_append_space]
    split
    · rfl
    · exact ih (isWord c)

/-- If only the last of some classes declares a language, it is found in the joined classes. -/
theorem find?_intercalate {classes : List (List Char)} (h : ∀ cs ∈ classes, find? cs = none)
    (last : List Char) : find? ([' '].intercalate (classes ++ [last])) = find? last := by
  induction classes with
  | nil => rw [List.nil_append, List.intercalate_singleton]
  | cons cs classes ih =>
    rw [List.forall_mem_cons] at h
    have hrest := ih h.2
    have hjoin : [' '].intercalate (cs :: (classes ++ [last])) =
        cs ++ ' ' :: [' '].intercalate (classes ++ [last]) := by
      cases classes <;> simp [List.intercalate_cons_cons]
    rw [List.cons_append, hjoin, find?, search_append_space]
    rw [find?] at hrest
    have hcs := h.1
    rw [find?] at hcs
    rw [hcs, hrest, Option.none_or]

/-! ### The class for a language -/

theorem name?_of_isName {name : List Char} (h : IsName name) : name? name = some name := by
  obtain ⟨front, c, rfl, hc⟩ := exists_of_endsInWord h.ends
  have htake : (front ++ [c]).takeWhile isNameChar = front ++ [c] :=
    List.takeWhile_eq_self_iff.2 h.chars
  have hhyphen : ¬ decide (c = '-') = true := by
    rw [decide_eq_true_eq]
    rintro rfl
    rw [not_isWord_hyphen] at hc
    contradiction
  have hdrop : dropHyphens (front ++ [c]) = front ++ [c] := by
    rw [dropHyphens, List.reverse_concat, List.dropWhile_cons, if_neg hhyphen, List.reverse_cons,
      List.reverse_reverse]
  rw [name?, htake, hdrop]
  split
  · rename_i hnil
    exact absurd hnil (by simp)
  · rfl

/-- The class for a language declares it. -/
theorem find?_languageClass {name : List Char} (h : IsName name) :
    find? ("language-".toList ++ name) = some name := by
  have hdeclared : declared? ("language-".toList ++ name) = some name := name?_of_isName h
  have hcons : "language-".toList ++ name = 'l' :: ("anguage-".toList ++ name) := rfl
  rw [hcons] at hdeclared ⊢
  rw [find?, search, if_neg Bool.false_ne_true, hdeclared]

theorem IsName.isBlank {name : List Char} (h : IsName name) {c : Char} (hc : c ∈ name) :
    SyntaxHue.isBlank c = false := by
  rcases isNameChar_iff.1 (h.chars c hc) with hword | rfl
  · exact isBlank_of_isWord hword
  · decide

/-- A name in lower case is a name. -/
theorem IsName.lowerText {name : List Char} (h : IsName name) :
    IsName (SyntaxHue.lowerText name) := by
  obtain ⟨front, c, rfl, hc⟩ := exists_of_endsInWord h.ends
  refine ⟨fun d hd => ?_, ?_⟩
  · obtain ⟨other, hother, hlowers⟩ := exists_of_mem_lowerText hd
    rcases isNameChar_iff.1 (h.chars other hother) with hword | rfl
    · exact isNameChar_iff.2 (.inl (hlowers.isWord hword))
    · have hhyphen : lowerChar '-' = ['-'] := rfl
      rcases hlowers with hd | ⟨hsigma, -⟩
      · rw [hhyphen, List.mem_singleton] at hd
        exact isNameChar_iff.2 (.inr hd)
      · contradiction
  · obtain ⟨front', d, hlower, hlowers⟩ := exists_getLast_lowerText front c
    rw [hlower, endsInWord_concat]
    exact hlowers.isWord hc

end LanguageClass

namespace CodeElement

open LanguageClass

/-- The language of an element is a name in lower case. -/
theorem isName_language (e : CodeElement) :
    IsName e.language.toList ∧ lowerText e.language.toList = e.language.toList := by
  rw [language]
  cases hlanguage : e.declaredLanguage? with
  | none =>
    have hnone : "none".toList = ['n', 'o', 'n', 'e'] := String.toList_ofList
    rw [Option.getD_none, hnone]
    refine ⟨⟨List.all_eq_true.1 (by decide), by decide⟩, lowerText_eq_self fun c hc => ?_⟩
    simp only [List.mem_cons, List.not_mem_nil, or_false] at hc
    rcases hc with rfl | rfl | rfl | rfl <;> exact isSettled_of_ascii (by decide) (by decide)
  | some language =>
    rw [declaredLanguage?, Option.map_eq_some_iff] at hlanguage
    obtain ⟨name, hfound, rfl⟩ := hlanguage
    obtain ⟨className, -, hfind⟩ := List.exists_of_findSome?_eq_some hfound
    rw [Option.getD_some, String.toList_ofList]
    exact ⟨(exists_of_find? hfind).1.lowerText, lowerText_lowerText name⟩

theorem toList_normalizedClass (e : CodeElement) (language : String) :
    (e.normalizedClass language).toList =
      [' '].intercalate (e.otherClasses ++ [("language-" ++ language).toList]) := by
  rw [normalizedClass, String.toList_intercalate, List.map_append, List.map_map]
  have hsame : e.otherClasses.map (String.toList ∘ String.ofList) = e.otherClasses :=
    List.map_id'' (fun _ => String.toList_ofList) _
  rw [hsame]
  rfl

theorem find?_of_mem_otherClasses {e : CodeElement} {cs : List Char} (h : cs ∈ e.otherClasses) :
    find? cs = none := by
  rw [otherClasses, List.mem_filter] at h
  exact Option.isNone_iff_eq_none.1 h.2

theorem find?_languageClass_language (e : CodeElement) :
    find? ("language-" ++ e.language).toList = some e.language.toList := by
  rw [String.toList_append]
  exact find?_languageClass e.isName_language.1

theorem find?_normalizedClass (e : CodeElement) :
    find? (e.normalizedClass e.language).toList = some e.language.toList := by
  rw [toList_normalizedClass, find?_intercalate fun _ => find?_of_mem_otherClasses]
  exact e.find?_languageClass_language

theorem splitBlanks_normalizedClass (e : CodeElement) :
    splitBlanks (e.normalizedClass e.language).toList =
      e.otherClasses ++ [("language-" ++ e.language).toList] := by
  rw [toList_normalizedClass]
  refine splitBlanks_intercalate (List.forall_mem_append.2 ⟨fun cs hcs => ?_, ?_⟩)
  · exact areWords_splitBlanks e.className.toList cs (List.mem_filter.1 hcs).1
  · have hprefix : "language-".toList = ['l', 'a', 'n', 'g', 'u', 'a', 'g', 'e', '-'] :=
      String.toList_ofList
    rw [String.toList_append, List.forall_mem_singleton, hprefix]
    refine ⟨List.cons_ne_nil _ _, List.forall_mem_append.2 ⟨fun c hc => ?_, fun c hc => ?_⟩⟩
    · simp only [List.mem_cons, List.not_mem_nil, or_false] at hc
      rcases hc with rfl | rfl | rfl | rfl | rfl | rfl | rfl | rfl | rfl <;> decide
    · exact e.isName_language.1.isBlank hc

theorem otherClasses_eq (e : CodeElement) :
    e.otherClasses = (splitBlanks e.className.toList).filter fun cs => ¬ Declares cs := by
  refine List.filter_congr fun cs _ => ?_
  have hdeclares : (find? cs).isSome = true ↔ Declares cs := isSome_find?_iff
  cases hfind : find? cs <;> simp [← hdeclares, hfind]

/-- The class of an element for its language: the classes that declare no language, in order, and
    one class that does. An element of that class, whatever is around it, is in the same language
    and gets the same class. -/
theorem normalizedClass_language (e : CodeElement) :
    splitBlanks (e.normalizedClass e.language).toList =
      ((splitBlanks e.className.toList).filter fun cs => ¬ Declares cs) ++
        [("language-" ++ e.language).toList] ∧
    Declares ("language-" ++ e.language).toList ∧
    (e.normalizedClass e.language).toList =
      [' '].intercalate (splitBlanks (e.normalizedClass e.language).toList) ∧
    ∀ code ancestors, let again : CodeElement := ⟨code, e.normalizedClass e.language, ancestors⟩
      again.declaredLanguage? = some e.language ∧
        again.normalizedClass again.language = e.normalizedClass e.language := by
  have hsplit := e.splitBlanks_normalizedClass
  refine ⟨hsplit.trans (by rw [otherClasses_eq]), ?_, ?_, ?_⟩
  · rw [← isSome_find?_iff, find?_languageClass_language]
    rfl
  · rw [hsplit, toList_normalizedClass]
  · intro code ancestors again
    have hdeclared : again.declaredLanguage? = some e.language := by
      rw [declaredLanguage?, List.findSome?_cons, find?_normalizedClass, Option.map_some,
        e.isName_language.2, String.ofList_toList]
    have hothers : again.otherClasses = e.otherClasses := by
      rw [otherClasses, hsplit, List.filter_append, List.filter_singleton,
        find?_languageClass_language]
      rw [List.filter_eq_self.2 fun cs hcs => ?_]
      · exact List.append_nil _
      · rw [find?_of_mem_otherClasses hcs]
        rfl
    refine ⟨hdeclared, ?_⟩
    rw [language, hdeclared, Option.getD_some, normalizedClass, hothers]
    rfl

end CodeElement

end SyntaxHue
