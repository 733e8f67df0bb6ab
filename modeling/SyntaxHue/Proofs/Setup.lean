import SyntaxHue.Setup

/-!
# The order of other names

Other names for languages are entered one by one, each into the store that the ones before it have
left. Their order does not count as long as no name that another one refers to comes to stand for
a different grammar. Main statement: unless the settings fail in every order, that is also the only
way in which it does not count.
-/

namespace SyntaxHue

namespace Settings

/-- The settings with other names for languages in place of their own. -/
def withAliases (settings : Settings) (aliases : List (String × String)) : Settings :=
  { settings with languages := { settings.languages with aliases := ⟨aliases⟩ } }

/-- The other names for languages, in order. -/
def aliases (settings : Settings) : List (String × String) :=
  settings.languages.aliases.entries

end Settings

namespace Store

/-- The store before other names are entered. -/
def named (fs : Files) (settings : LanguageSettings) : Except SetupError Store := do
  let s ← initial settings.builtins
  settings.files.foldlM (addFile fs) s

/-- Every name that is entered and referred to stands already for what it is entered for. -/
def Settled (s : Store) (aliases : List (String × String)) : Prop :=
  ∀ entry ∈ aliases, ∀ other ∈ aliases, other.2 = entry.1 → s.get? entry.1 = s.get? entry.2

/-- The store `t` is `s` with all of `aliases`, each for what its language is in `s`. -/
structure Enters (s : Store) (aliases : List (String × String)) (t : Store) : Prop where
  of_mem : ∀ entry ∈ aliases, t.get? entry.1 = s.get? entry.2
  of_notMem : ∀ name, name ∉ aliases.map Prod.fst → t.get? name = s.get? name

variable {s t u : Store} {fs : Files} {aliases entries : List (String × String)}
  {entry : String × String} {name : String}

theorem ofSettings_eq (fs : Files) (settings : LanguageSettings) :
    ofSettings fs settings =
      match named fs settings with
      | .error e => .error e
      | .ok s => settings.aliases.entries.foldlM addName s := by
  rw [ofSettings, named]
  cases initial settings.builtins with
  | error e => rfl
  | ok s =>
    dsimp only [bind, Except.bind]
    cases settings.files.foldlM (addFile fs) s with
    | error e => rfl
    | ok t => rfl

theorem addName_eq (s : Store) (entry : String × String) :
    s.addName entry =
      match s.get? entry.2 with
      | none => .error (.grammar (.unknownLanguage entry.2))
      | some id => .ok { s with languages := s.languages.put entry.1 id } := by
  rw [addName, addAlias]
  cases s.get? entry.2 with
  | none => rfl
  | some id => rfl

/-- Names keep what they stand for when another one is entered. -/
theorem get?_of_addName (h : s.addName entry = .ok t) (name : String) :
    t.get? name = if entry.1 = name then s.get? entry.2 else s.get? name := by
  rw [addName_eq] at h
  cases hid : s.get? entry.2 with
  | none => simp [hid] at h
  | some id =>
    simp only [hid, Except.ok.injEq] at h
    subst h
    exact Table.get?_put s.languages entry.1 name id

theorem exists_of_addName (h : s.get? entry.2 ≠ none) : ∃ t, s.addName entry = .ok t := by
  obtain ⟨id, hid⟩ := Option.ne_none_iff_exists'.1 h
  rw [addName_eq, hid]
  exact ⟨_, rfl⟩

theorem foldlM_addName_cons :
    (entry :: entries).foldlM addName s =
      match s.addName entry with
      | .error e => .error e
      | .ok t => entries.foldlM addName t := by
  rw [List.foldlM_cons]
  cases s.addName entry with
  | error e => rfl
  | ok t => rfl

/-- A name that is not entered keeps what it stands for. -/
theorem get?_of_foldlM (h : entries.foldlM addName s = .ok t)
    (hname : name ∉ entries.map Prod.fst) : t.get? name = s.get? name := by
  induction entries generalizing s with
  | nil =>
    cases h
    rfl
  | cons entry entries ih =>
    rw [List.map_cons, List.mem_cons, not_or] at hname
    rw [foldlM_addName_cons] at h
    cases hu : s.addName entry with
    | error e => simp [hu] at h
    | ok u =>
      rw [hu] at h
      have hkept := get?_of_addName hu name
      rw [if_neg (Ne.symm hname.1)] at hkept
      rw [ih h hname.2, hkept]

/-- What a name stands for right after it was entered is what it stands for in the end. -/
theorem get?_of_foldlM_cons (hnodup : ((entry :: entries).map Prod.fst).Nodup)
    (h : (entry :: entries).foldlM addName s = .ok t) : t.get? entry.1 = s.get? entry.2 := by
  rw [List.map_cons, List.nodup_cons] at hnodup
  rw [foldlM_addName_cons] at h
  cases hu : s.addName entry with
  | error e => simp [hu] at h
  | ok u =>
    rw [hu] at h
    have hentry := get?_of_addName hu entry.1
    rw [if_pos rfl] at hentry
    rw [get?_of_foldlM h hnodup.1, hentry]

/-! ### Names that are settled -/

/-- All languages that the names refer to are the same in both stores. -/
def SameTargets (s t : Store) (aliases : List (String × String)) : Prop :=
  ∀ entry ∈ aliases, t.get? entry.2 = s.get? entry.2

theorem SameTargets.addName (h : s.SameTargets t aliases) (hsettled : s.Settled aliases)
    (hentry : entry ∈ aliases) (hu : t.addName entry = .ok u) : s.SameTargets u aliases := by
  intro other hother
  rw [get?_of_addName hu]
  by_cases htarget : entry.1 = other.2
  · rw [if_pos htarget, h entry hentry, ← htarget]
    exact (hsettled entry hentry other hother htarget.symm).symm
  · rw [if_neg htarget]
    exact h other hother

/-- Settled names whose languages are known can be entered in the order in which they come. -/
theorem exists_of_known (hsettled : s.Settled aliases) (hsub : ∀ entry ∈ entries, entry ∈ aliases)
    (hnodup : (entries.map Prod.fst).Nodup) (hknown : ∀ entry ∈ entries, s.get? entry.2 ≠ none)
    (hsame : s.SameTargets t aliases) :
    ∃ u, entries.foldlM addName t = .ok u ∧
      (∀ entry ∈ entries, u.get? entry.1 = s.get? entry.2) := by
  induction entries generalizing t with
  | nil => exact ⟨t, rfl, by simp⟩
  | cons entry entries ih =>
    have hentry := hsub entry List.mem_cons_self
    have htarget := hsame entry hentry
    have hget : t.get? entry.2 ≠ none := by
      rw [htarget]
      exact hknown entry List.mem_cons_self
    obtain ⟨mid, hmid⟩ := exists_of_addName hget
    obtain ⟨u, hu, hentries⟩ := ih (fun other hother => hsub other (List.mem_cons_of_mem _ hother))
      (List.nodup_cons.1 hnodup).2 (fun other hother => hknown other (List.mem_cons_of_mem _ hother))
      (hsame.addName hsettled hentry hmid)
    have hall : (entry :: entries).foldlM addName t = .ok u := by
      rw [foldlM_addName_cons, hmid]
      exact hu
    refine ⟨u, hall, ?_⟩
    intro other hother
    rcases List.mem_cons.1 hother with rfl | hother
    · rw [get?_of_foldlM_cons hnodup hall, htarget]
    · exact hentries other hother

/-- If one of the languages is not known, settled names cannot be entered in any order. -/
theorem exists_of_unknown (hsettled : s.Settled aliases)
    (hsub : ∀ entry ∈ entries, entry ∈ aliases) (hunknown : ∃ entry ∈ entries, s.get? entry.2 = none)
    (hsame : s.SameTargets t aliases) : ∃ e, entries.foldlM addName t = .error e := by
  induction entries generalizing t with
  | nil => simp at hunknown
  | cons entry entries ih =>
    have hentry := hsub entry List.mem_cons_self
    rw [foldlM_addName_cons]
    cases hmid : t.addName entry with
    | error e => exact ⟨e, rfl⟩
    | ok mid =>
      refine ih (fun other hother => hsub other (List.mem_cons_of_mem _ hother)) ?_
        (hsame.addName hsettled hentry hmid)
      obtain ⟨other, hother, hnone⟩ := hunknown
      rcases List.mem_cons.1 hother with rfl | hother
      · -- the first name was entered, so its language is known
        rw [addName_eq, hsame _ hentry, hnone] at hmid
        simp at hmid
      · exact ⟨other, hother, hnone⟩

/-- Settled names are entered for what their languages are before, or they cannot be entered. -/
theorem enters_of_settled (hsettled : s.Settled aliases) (hnodup : (aliases.map Prod.fst).Nodup) :
    if ∀ entry ∈ aliases, (s.get? entry.2).isSome then
      ∃ t, aliases.foldlM addName s = .ok t ∧ s.Enters aliases t
    else ∃ e, aliases.foldlM addName s = .error e := by
  have hsame : s.SameTargets s aliases := fun _ _ => rfl
  split
  · rename_i hknown
    obtain ⟨t, ht, hmem⟩ := exists_of_known hsettled (fun _ => id) hnodup
      (fun entry hentry => Option.isSome_iff_ne_none.1 (hknown entry hentry)) hsame
    exact ⟨t, ht, hmem, fun name => get?_of_foldlM ht⟩
  · rename_i hunknown
    refine exists_of_unknown hsettled (fun _ => id) ?_ hsame
    simpa using hunknown

/-- The names of two stores that the same aliases were entered into, in whatever order. -/
theorem Enters.get?_eq (h : s.Enters aliases t) (h' : s.Enters entries u)
    (hperm : entries.Perm aliases) (name : String) : t.get? name = u.get? name := by
  by_cases hname : name ∈ aliases.map Prod.fst
  · obtain ⟨entry, hentry, rfl⟩ := List.mem_map.1 hname
    rw [h.of_mem entry hentry, h'.of_mem entry (hperm.mem_iff.2 hentry)]
  · have hname' : name ∉ entries.map Prod.fst := by
      rwa [(hperm.map Prod.fst).mem_iff]
    rw [h.of_notMem name hname, h'.of_notMem name hname']

theorem Settled.perm (h : s.Settled aliases) (hperm : entries.Perm aliases) :
    s.Settled entries := by
  intro entry hentry other hother
  exact h entry (hperm.mem_iff.1 hentry) other (hperm.mem_iff.1 hother)

end Store

namespace Highlighter

variable {σ : Type} {fs : Files} {settings : Settings} {aliases entries : List (String × String)}

/-- Both cannot be set up, or both can and every name stands for the same grammar in them. -/
inductive Agree : Except SetupError (Highlighter σ) → Except SetupError (Highlighter σ) → Prop where
  | error {e e' : SetupError} : Agree (.error e) (.error e')
  | ok {h h' : Highlighter σ} : (∀ name, h.store.get? name = h'.store.get? name) →
      Agree (.ok h) (.ok h')

theorem Agree.isOk_eq {r r' : Except SetupError (Highlighter σ)} (h : Agree r r') :
    r.isOk = r'.isOk := by
  cases h with
  | error => rfl
  | ok => rfl

/-- It makes no difference in which order the settings have their other names for languages. -/
def OrderFree (σ : Type) (fs : Files) (settings : Settings) : Prop :=
  ∀ aliases entries, aliases.Perm settings.aliases → entries.Perm settings.aliases →
    Agree (ofSettings (σ := σ) fs (settings.withAliases aliases))
      (ofSettings fs (settings.withAliases entries))

theorem ofSettings_withAliases (aliases : List (String × String)) :
    ofSettings (σ := σ) fs (settings.withAliases aliases) =
      match Store.named fs settings.languages with
      | .error e => .error e
      | .ok s =>
        match aliases.foldlM Store.addName s with
        | .error e => .error e
        | .ok t => .ok { store := t, settings := settings.withAliases aliases } := by
  have hnamed : Store.named fs (settings.withAliases aliases).languages =
      Store.named fs settings.languages := rfl
  rw [ofSettings, Store.ofSettings_eq, hnamed]
  cases Store.named fs settings.languages with
  | error e => rfl
  | ok s =>
    dsimp only [Settings.withAliases]
    cases aliases.foldlM Store.addName s with
    | error e => rfl
    | ok t => rfl

theorem agree_of_settled {s : Store} (hnamed : Store.named fs settings.languages = .ok s)
    (hsettled : s.Settled aliases) (hnodup : (aliases.map Prod.fst).Nodup)
    (hperm : entries.Perm aliases) :
    Agree (ofSettings (σ := σ) fs (settings.withAliases aliases))
      (ofSettings fs (settings.withAliases entries)) := by
  have hfirst := Store.enters_of_settled hsettled hnodup
  have hother := Store.enters_of_settled (hsettled.perm hperm)
    ((hperm.map Prod.fst).nodup_iff.2 hnodup)
  simp only [hperm.mem_iff] at hother
  rw [ofSettings_withAliases, ofSettings_withAliases, hnamed]
  dsimp only
  by_cases hknown : ∀ entry ∈ aliases, (s.get? entry.2).isSome
  · rw [if_pos hknown] at hfirst hother
    obtain ⟨t, ht, henters⟩ := hfirst
    obtain ⟨u, hu, henters'⟩ := hother
    rw [ht, hu]
    exact .ok (henters.get?_eq henters' hperm)
  · rw [if_neg hknown] at hfirst hother
    obtain ⟨e, he⟩ := hfirst
    obtain ⟨e', he'⟩ := hother
    rw [he, he']
    exact .error

theorem exists_of_isOk {s : Store} (hnamed : Store.named fs settings.languages = .ok s)
    (h : (ofSettings (σ := σ) fs (settings.withAliases aliases)).isOk = true) :
    ∃ t, aliases.foldlM Store.addName s = .ok t ∧
      ofSettings (σ := σ) fs (settings.withAliases aliases) =
        .ok { store := t, settings := settings.withAliases aliases } := by
  rw [ofSettings_withAliases, hnamed] at h ⊢
  dsimp only at h ⊢
  cases hfold : aliases.foldlM Store.addName s with
  | error e => simp [hfold, Except.isOk, Except.toBool] at h
  | ok t => exact ⟨t, rfl, rfl⟩

/-- A name that is referred to, entered before the name that refers to it and after it: in both
    orders it has to stand for the same grammar. -/
theorem settled_of_orderFree {s : Store} (hnodup : (settings.aliases.map Prod.fst).Nodup)
    (hfree : OrderFree σ fs settings) (hnamed : Store.named fs settings.languages = .ok s)
    (hperm : entries.Perm settings.aliases)
    (hok : (ofSettings (σ := σ) fs (settings.withAliases entries)).isOk = true) :
    s.Settled settings.aliases := by
  intro entry hentry other hother htarget
  by_cases hsame : entry = other
  · rw [hsame] at htarget ⊢
    rw [htarget]
  · have hmem : entry ∈ settings.aliases.erase other := (List.mem_erase_of_ne hsame).2 hentry
    let rest := (settings.aliases.erase other).erase entry
    have hlate : (other :: entry :: rest).Perm settings.aliases :=
      ((List.perm_cons_erase hother).trans ((List.perm_cons_erase hmem).cons other)).symm
    have hearly : (entry :: other :: rest).Perm settings.aliases :=
      (List.Perm.swap other entry rest).trans hlate
    have hokLate := (hfree _ _ hlate hperm).isOk_eq.trans hok
    have hokEarly := (hfree _ _ hearly hperm).isOk_eq.trans hok
    obtain ⟨t, ht, hsetLate⟩ := exists_of_isOk hnamed hokLate
    obtain ⟨u, hu, hsetEarly⟩ := exists_of_isOk hnamed hokEarly
    have hagree := hfree _ _ hlate hearly
    rw [hsetLate, hsetEarly] at hagree
    cases hagree with
    | ok hnames =>
      have hnodupLate := ((hlate.map Prod.fst).nodup_iff.2 hnodup)
      have hnodupEarly := ((hearly.map Prod.fst).nodup_iff.2 hnodup)
      have hname : t.get? other.1 = s.get? entry.1 := by
        rw [Store.get?_of_foldlM_cons hnodupLate ht, htarget]
      have hname' : u.get? other.1 = s.get? entry.2 := by
        rw [Store.foldlM_addName_cons] at hu
        cases hmid : s.addName entry with
        | error e => simp [hmid] at hu
        | ok mid =>
          rw [hmid] at hu
          rw [Store.get?_of_foldlM_cons (List.nodup_cons.1 hnodupEarly).2 hu,
            Store.get?_of_addName hmid, if_pos htarget.symm]
      rw [← hname, ← hname', hnames other.1]

/-- The order of other names does not count exactly if the settings fail in every order, or if
    every name that another one refers to stands already for what it is entered for. -/
theorem orderFree_iff (σ : Type) (fs : Files) (settings : Settings)
    (hnodup : settings.languages.aliases.names.Nodup) :
    OrderFree σ fs settings ↔
      (∀ aliases, aliases.Perm settings.aliases →
        ∃ e, ofSettings (σ := σ) fs (settings.withAliases aliases) = .error e) ∨
      ∃ s, Store.named fs settings.languages = .ok s ∧ s.Settled settings.aliases := by
  constructor
  · intro hfree
    by_cases hfail : ∀ aliases, aliases.Perm settings.aliases →
        ∃ e, ofSettings (σ := σ) fs (settings.withAliases aliases) = .error e
    · exact Or.inl hfail
    · right
      obtain ⟨entries, hentries⟩ := Classical.not_forall.1 hfail
      obtain ⟨hperm, hnot⟩ := Classical.not_imp.1 hentries
      cases hnamed : Store.named fs settings.languages with
      | error e =>
        have herror : ofSettings (σ := σ) fs (settings.withAliases entries) = .error e := by
          rw [ofSettings_withAliases, hnamed]
        exact absurd ⟨e, herror⟩ hnot
      | ok s =>
        have hok : (ofSettings (σ := σ) fs (settings.withAliases entries)).isOk = true := by
          cases hset : ofSettings (σ := σ) fs (settings.withAliases entries) with
          | error e => exact absurd ⟨e, hset⟩ hnot
          | ok h => rfl
        exact ⟨s, rfl, settled_of_orderFree hnodup hfree hnamed hperm hok⟩
  · intro h aliases entries haliases hentries
    rcases h with hfail | ⟨s, hnamed, hsettled⟩
    · obtain ⟨e, he⟩ := hfail aliases haliases
      obtain ⟨e', he'⟩ := hfail entries hentries
      rw [he, he']
      exact .error
    · have hnodup' : (aliases.map Prod.fst).Nodup := (haliases.map Prod.fst).nodup_iff.2 hnodup
      exact agree_of_settled hnamed (hsettled.perm haliases) hnodup'
        (hentries.trans haliases.symm)

/-- A file with a grammar that has no rules. -/
def plainFiles : Files :=
  (FileTree.ofList [("plain.json", "\x7b\x7d".toByteArray)]).toFiles

/-- Settings in which one name refers to the language of a file, and another one to that name. -/
def chained : Settings :=
  { languages := {
      builtins := false
      aliases := ⟨[("text", "simple"), ("simple", "plain")]⟩
      files := [{ language := "plain", path := "plain.json" }] } }

/-- The name that the other one refers to has to come first. -/
theorem not_orderFree_chained : ¬ OrderFree Unit plainFiles chained := by
  intro hfree
  have hagree := hfree [("text", "simple"), ("simple", "plain")]
    [("simple", "plain"), ("text", "simple")] (.refl _) (List.Perm.swap _ _ _)
  have hlate : (ofSettings (σ := Unit) plainFiles (chained.withAliases
      [("text", "simple"), ("simple", "plain")])).isOk = false := by
    decide +kernel
  have hearly : (ofSettings (σ := Unit) plainFiles (chained.withAliases
      [("simple", "plain"), ("text", "simple")])).isOk = true := by
    decide +kernel
  rw [hagree.isOk_eq, hearly] at hlate
  contradiction

/-- Settings in which a name is entered again for the grammar that it stands for already. -/
def repeated : Settings :=
  { chained with languages := { chained.languages with
      aliases := ⟨[("text", "plain"), ("plain", "plain")]⟩ } }

theorem orderFree_repeated :
    repeated.languages.aliases.names.Nodup ∧ OrderFree Unit plainFiles repeated := by
  have hnodup : repeated.languages.aliases.names.Nodup := by decide
  have hisOk : (Store.named plainFiles repeated.languages).isOk = true := by decide +kernel
  refine ⟨hnodup, (orderFree_iff Unit plainFiles repeated hnodup).2 (Or.inr ?_)⟩
  cases hnamed : Store.named plainFiles repeated.languages with
  | error e => simp [hnamed, Except.isOk, Except.toBool] at hisOk
  | ok s =>
    refine ⟨s, rfl, ?_⟩
    intro entry hentry other hother htarget
    simp only [Settings.aliases, repeated, List.mem_cons, List.not_mem_nil, or_false] at hentry hother
    rcases hentry with rfl | rfl
    · rcases hother with rfl | rfl
      · simp at htarget
      · simp at htarget
    · rfl

end Highlighter

end SyntaxHue
