import SyntaxHue.Proofs.Json.Unique
import SyntaxHue.Token.Dump

/-!
# Token trees are known from their dumps

As data a node is a text or a record, and what a token holds is a text or a list. A token without
aliases has one field less than others. So data tells trees apart, and JSON text tells data apart.
-/

namespace SyntaxHue

/-! ### Data tells trees apart -/

theorem tokenFields_inj {t u : Token} {a b : Datum} (h : tokenFields t a = tokenFields u b) :
    t.kind = u.kind ∧ a = b ∧ t.aliases = u.aliases ∧ t.length = u.length := by
  have htexts : Function.Injective Datum.text := fun _ _ htext => Datum.text.inj htext
  unfold tokenFields at h
  -- the third field is `length` if there are no aliases, and `alias` if there are some
  cases ht : t.aliases with
  | nil =>
    cases hu : u.aliases with
    | nil => simpa [ht, hu] using h
    | cons => simp [ht, hu] at h
  | cons =>
    cases hu : u.aliases with
    | nil => simp [ht, hu] at h
    | cons =>
      simp only [ht, hu, List.isEmpty_cons, Bool.false_eq_true, if_false, List.cons_append,
        List.nil_append, List.cons.injEq, Field.mk.injEq, Datum.text.injEq, Datum.list.injEq,
        Datum.natural.injEq, htexts.list_map.eq_iff, true_and, and_true] at h
      exact ⟨h.1, h.2.1, List.cons_eq_cons.2 h.2.2.1, h.2.2.2⟩

mutual

theorem Node.toDatum_inj {n m : Node} (h : n.toDatum = m.toDatum) : n = m := by
  match n, m with
  | .text s, .text s' => rw [Datum.text.inj h]
  | .text _, .token (.mk _ _ _ _) => cases h
  | .token (.mk _ _ _ _), .text _ => cases h
  | .token t, .token u => rw [Token.toDatum_inj h]

theorem Token.toDatum_inj {t u : Token} (h : t.toDatum = u.toDatum) : t = u := by
  match t, u with
  | .mk kind content aliases length, .mk kind' content' aliases' length' =>
    obtain ⟨hkind, hcontent, haliases, hlength⟩ := tokenFields_inj (Datum.record.inj h)
    obtain rfl : kind = kind' := hkind
    obtain rfl : aliases = aliases' := haliases
    obtain rfl : length = length' := hlength
    rw [Content.toDatum_inj hcontent]

theorem Content.toDatum_inj {c d : Content} (h : c.toDatum = d.toDatum) : c = d := by
  match c, d with
  | .text s, .text s' => rw [Datum.text.inj h]
  | .text _, .nested _ => cases h
  | .nested _, .text _ => cases h
  | .nested nodes, .nested nodes' => rw [toDatums_inj (Datum.list.inj h)]

theorem toDatums_inj {nodes others : List Node} (h : toDatums nodes = toDatums others) :
    nodes = others := by
  match nodes, others with
  | [], [] => rfl
  | [], _ :: _ => cases h
  | _ :: _, [] => cases h
  | n :: nodes, m :: others =>
    obtain ⟨hnode, hnodes⟩ := List.cons.inj h
    rw [Node.toDatum_inj hnode, toDatums_inj hnodes]

end

/-! ### Data of trees can be printed -/

open Json (Lexeme IsText)

/-- Data with texts for keys, in which all numbers are as a printer writes them. -/
def Datum.Printable (v : Datum) : Prop :=
  v.Keyed ∧ ∀ x ∈ v.lexemes, x.Printable

namespace Datum.Printable

theorem text (s : String) : (Datum.text s).Printable :=
  ⟨trivial, List.forall_mem_singleton.2 trivial⟩

theorem natural (n : Nat) : (Datum.natural n).Printable :=
  ⟨trivial, List.forall_mem_singleton.2 trivial⟩

theorem list {items : List Datum} (h : ∀ item ∈ items, item.Printable) :
    (Datum.list items).Printable := by
  have hkeyed : ∀ others : List Datum, (∀ item ∈ others, item.Printable) →
      Datum.AllKeyed others := by
    intro others hothers
    induction others with
    | nil => exact trivial
    | cons item others ih =>
      rw [List.forall_mem_cons] at hothers
      exact ⟨hothers.1.1, ih hothers.2⟩
  exact ⟨hkeyed items h,
    Json.forall_lexemes_list trivial trivial trivial fun item hitem => (h item hitem).2⟩

theorem record {fields : List Field}
    (h : ∀ f ∈ fields, (∃ name, f.key = .text name) ∧ f.value.Printable) :
    (Datum.record fields).Printable := by
  have hkeyed : ∀ others : List Field,
      (∀ f ∈ others, (∃ name, f.key = .text name) ∧ f.value.Printable) →
      Field.AllKeyed others := by
    intro others hothers
    induction others with
    | nil => exact trivial
    | cons f others ih =>
      rw [List.forall_mem_cons] at hothers
      obtain ⟨key, value⟩ := f
      exact ⟨hothers.1.1, hothers.1.2.1, ih hothers.2⟩
  refine ⟨hkeyed fields h, Json.forall_lexemes_record trivial trivial trivial trivial ?_⟩
  intro f hf
  obtain ⟨⟨name, hname⟩, hvalue⟩ := h f hf
  rw [hname]
  exact ⟨(text name).2, hvalue.2⟩

end Datum.Printable

theorem printable_tokenFields (t : Token) {content : Datum} (h : content.Printable) :
    (Datum.record (tokenFields t content)).Printable := by
  have haliases : (Datum.list (t.aliases.map .text)).Printable :=
    .list (List.forall_mem_map.2 fun name _ => .text name)
  refine .record fun f hf => ?_
  simp only [tokenFields, List.mem_append, List.mem_cons, List.not_mem_nil, or_false] at hf
  rcases hf with ((rfl | rfl) | hf) | rfl
  · exact ⟨⟨_, rfl⟩, .text _⟩
  · exact ⟨⟨_, rfl⟩, h⟩
  · split at hf
    · contradiction
    · rw [List.mem_singleton.1 hf]
      exact ⟨⟨_, rfl⟩, haliases⟩
  · exact ⟨⟨_, rfl⟩, .natural _⟩

mutual

theorem Node.printable_toDatum (n : Node) : n.toDatum.Printable := by
  match n with
  | .text s => exact .text s
  | .token t => exact t.printable_toDatum

theorem Token.printable_toDatum (t : Token) : t.toDatum.Printable := by
  match t with
  | .mk _ content _ _ => exact printable_tokenFields _ content.printable_toDatum

theorem Content.printable_toDatum (c : Content) : c.toDatum.Printable := by
  match c with
  | .text s => exact .text s
  | .nested nodes => exact .list (printable_toDatums nodes)

theorem printable_toDatums (nodes : List Node) : ∀ item ∈ toDatums nodes, item.Printable := by
  match nodes with
  | [] => exact List.forall_mem_nil _
  | node :: nodes =>
    exact List.forall_mem_cons.2 ⟨node.printable_toDatum, printable_toDatums nodes⟩

end

/-! ### Dumps -/

/-- A dump is a text of the data of its tree. -/
theorem isText_dump (nodes : List Node) : IsText (.list (toDatums nodes)) (dump nodes).toList := by
  have hprintable := Datum.Printable.list (printable_toDatums nodes)
  exact Json.isText_toJson hprintable.1 hprintable.2

/-- A token tree is known from its dump: whatever the kinds, aliases, lengths and texts in it are,
    no other tree has the same one. -/
theorem dump_inj (nodes others : List Node) : dump nodes = dump others ↔ nodes = others := by
  constructor
  · intro h
    have htext := isText_dump nodes
    rw [h] at htext
    exact toDatums_inj (Datum.list.inj (htext.unique (isText_dump others)))
  · exact congrArg dump

end SyntaxHue
