import Haml.Element
import Haml.Proofs.Fragment

/-!
# Keys of attributes

The keys under which an element's attributes are written are those of its tokens and of its attribute
text. They hold word characters and hyphens only, so that no key is taken for a part of the tag around
it.
-/

namespace Haml

namespace Attribute

/-! ## Keys of entries -/

theorem mem_entriesOf {attributes : List Attribute} {entry : Entry} :
    entry ∈ entriesOf attributes ↔ ∃ key value, ⟨key, value⟩ ∈ attributes
      ∧ entry ∈ Value.entries key value := by
  induction attributes with
  | nil => simp [entriesOf]
  | cons first rest ih =>
      obtain ⟨key, value⟩ := first
      rw [entriesOf, List.mem_append, ih, entries]
      constructor
      · rintro (h | ⟨key', value', hmem, h⟩)
        · exact ⟨key, value, List.mem_cons_self, h⟩
        · exact ⟨key', value', List.mem_cons_of_mem _ hmem, h⟩
      · rintro ⟨key', value', hmem, h⟩
        rcases List.mem_cons.mp hmem with heq | hmem
        · cases heq
          exact .inl h
        · exact .inr ⟨key', value', hmem, h⟩

theorem of_mem_members {rules : List Rule} {content key : Text} {value : Value}
    (h : ⟨key, value⟩ ∈ members rules content) :
    ∃ text, value = .string text
      ∧ ∃ fragment ∈ fragments content, readFragment? rules (fun _ => []) fragment
          = some ⟨key, .string text⟩ := by
  obtain ⟨hread, hstring⟩ := List.mem_filter.mp h
  obtain ⟨fragment, hmem, hread⟩ := List.mem_filterMap.mp hread
  cases value with
  | string text => exact ⟨text, rfl, fragment, hmem, hread⟩
  | number digits => cases hstring
  | symbol name => cases hstring
  | boolean value => cases hstring
  | code code => cases hstring
  | group members => cases hstring

theorem isKey_of_mem_entries {s : Text} {entry : Entry} (h : entry ∈ entriesOf (ofText s)) :
    IsKey entry.key := by
  obtain ⟨key, value, hmem, hentry⟩ := mem_entriesOf.mp h
  obtain ⟨fragment, _, hread⟩ := List.mem_filterMap.mp hmem
  have hkey : IsKey key := isKey_of_readFragment? hread
  cases value with
  | group inner =>
      obtain ⟨rule, _, _, rest, _, hvalue, _⟩ := of_readFragment? hread
      obtain ⟨content, _, rfl⟩ := of_read? hvalue
      rw [Value.entries] at hentry
      obtain ⟨member, hmember, rfl⟩ := List.mem_map.mp hentry
      obtain ⟨key', value', hmem', hentry'⟩ := mem_entriesOf.mp hmember
      obtain ⟨text, rfl, _, _, hread'⟩ := of_mem_members hmem'
      obtain rfl : member = .literal key' text := by simpa [Value.entries] using hentry'
      have hkey' : IsKey key' := isKey_of_readFragment? hread'
      intro c hc
      rcases List.mem_append.mp hc with hc | hc
      · exact hkey c hc
      · rcases List.mem_cons.mp hc with rfl | hc
        · decide
        · exact hkey' c hc
  | boolean value => cases value <;> simp_all [Value.entries, Entry.flag]
  | _ => simp_all [Value.entries, Entry.literal, Entry.expression]

end Attribute

/-! ## Keys of an element -/

namespace AttributeSet

variable {entry : Entry} {entries : List Entry} {set : AttributeSet}

theorem forall_mem_insertEntry {P : Entry → Prop}
    (hcombine : ∀ key before value, P ⟨key, before⟩ → P ⟨key, value⟩ →
      P ⟨key, combine key before value⟩)
    (hentries : ∀ e ∈ entries, P e) (hentry : P entry) : ∀ e ∈ insertEntry entry entries, P e := by
  induction entries with
  | nil => exact fun e he => List.mem_singleton.mp he ▸ hentry
  | cons first rest ih =>
      obtain ⟨hfirst, hrest⟩ := List.forall_mem_cons.mp hentries
      intro e he
      rw [insertEntry] at he
      split at he
      · rename_i hkey
        rcases List.mem_cons.mp he with rfl | he
        · exact hcombine _ _ _ hfirst (hkey ▸ hentry)
        · exact hrest e he
      · rcases List.mem_cons.mp he with rfl | he
        · exact hfirst
        · exact ih hrest e he

/-- What holds of entries, and of their combinations, holds of all entries of a merged set. -/
theorem forall_mem_merge {P : Entry → Prop}
    (hcombine : ∀ key before value, P ⟨key, before⟩ → P ⟨key, value⟩ →
      P ⟨key, combine key before value⟩)
    (hset : ∀ e ∈ set.entries, P e) (hentries : ∀ e ∈ entries, P e) :
    ∀ e ∈ (set.merge entries).entries, P e := by
  have hinsert : ∀ (added : List Entry) (base : AttributeSet), (∀ e ∈ base.entries, P e) →
      (∀ e ∈ added, P e) → ∀ e ∈ (added.foldl insert base).entries, P e := by
    intro added
    induction added with
    | nil => exact fun base hbase _ => hbase
    | cons first rest ih =>
        intro base hbase hadded
        obtain ⟨hfirst, hrest⟩ := List.forall_mem_cons.mp hadded
        exact ih _ (forall_mem_insertEntry hcombine hbase hfirst) hrest
  have hflag : ∀ (added : List Entry) (base : AttributeSet), (∀ e ∈ base.entries, P e) →
      (∀ e ∈ added, P e) → ∀ e ∈ (added.foldl insertFlag base).entries, P e := by
    intro added
    induction added with
    | nil => exact fun base hbase _ => hbase
    | cons first rest ih =>
        intro base hbase hadded
        obtain ⟨hfirst, hrest⟩ := List.forall_mem_cons.mp hadded
        refine ih _ (fun e he => ?_) hrest
        unfold insertFlag at he
        split at he
        · rcases List.mem_append.mp he with he | he
          · exact hbase e he
          · rw [List.mem_singleton.mp he]; exact hfirst
        · exact hbase e he
  exact hflag _ _ (hinsert _ _ hset fun e he => hentries e (List.mem_of_mem_filter he))
    fun e he => hentries e (List.mem_of_mem_filter he)

end AttributeSet

theorem Tag.isKey_of_mem_attributeSet {tag : Tag} {entry : Entry}
    (h : entry ∈ tag.attributeSet.entries) : Attribute.IsKey entry.key := by
  have hshorthand : ∀ e ∈ tag.shorthandEntries, Attribute.IsKey e.key := by
    have hclass : Attribute.IsKey "class".toList :=
      List.all_eq_true.mp (by decide : "class".toList.all Attribute.isKeyChar = true)
    have hid : Attribute.IsKey "id".toList :=
      List.all_eq_true.mp (by decide : "id".toList.all Attribute.isKeyChar = true)
    intro e he
    unfold shorthandEntries at he
    grind [Entry.literal]
  have hliteral : ∀ e ∈ tag.literalEntries, Attribute.IsKey e.key := by
    intro e he
    unfold literalEntries at he
    split at he
    · exact Attribute.isKey_of_mem_entries he
    · cases he
  have hempty : ∀ e ∈ AttributeSet.empty.entries, Attribute.IsKey e.key := fun e he => by cases he
  -- Combining two values keeps their key.
  have hset := AttributeSet.forall_mem_merge (P := fun e => Attribute.IsKey e.key)
    (fun _ _ _ h _ => h) hempty hshorthand
  exact AttributeSet.forall_mem_merge (P := fun e => Attribute.IsKey e.key)
    (fun _ _ _ h _ => h) hset hliteral entry h

end Haml
