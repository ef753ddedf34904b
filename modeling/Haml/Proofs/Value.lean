import Haml.Proofs.Key
import Haml.Proofs.Source

/-!
# Values of entries

What stands between the quotes of an attribute comes from the attribute text of the element: a code tag
around a part of it, or a part of it, decoded or not, with its quotes written as references.
-/

namespace Haml

/-- The ways in which an entry gets its value from a text. -/
inductive EntryValue.IsFrom (s : Text) : EntryValue → Prop where
  | flag : IsFrom s .flag
  | code {code : Text} : code <:+: s → IsFrom s (.text (Erb.output code))
  /-- A number, or the name of a symbol. -/
  | plain {text : Text} : text <:+: s → IsFrom s (.text (Entry.escapeQuotes text))
  /-- A single-quoted literal. -/
  | decoded {body : Text} : body <:+: s →
      IsFrom s (.text (Entry.escapeQuotes (Attribute.unescape body)))
  /-- A double-quoted literal. -/
  | expanded {body : Text} : body <:+: s →
      IsFrom s (.text (Entry.escapeQuotes (Interpolation.expand (Attribute.unescape body))))

theorem EntryValue.IsFrom.trans {s t : Text} {value : EntryValue} (h : value.IsFrom s) (hs : s <:+: t) :
    value.IsFrom t := by
  cases h with
  | flag => exact .flag
  | code hpart => exact .code (hpart.trans hs)
  | plain hpart => exact .plain (hpart.trans hs)
  | decoded hpart => exact .decoded (hpart.trans hs)
  | expanded hpart => exact .expanded (hpart.trans hs)

namespace Attribute

variable {s text : Text} {entry : Entry}

theorem isFrom_of_quotedText? (h : quotedText? s = some text) :
    (EntryValue.text (Entry.escapeQuotes text)).IsFrom s := by
  have hbody : ∀ {quote : Char} {cs body : Text}, quotedBody? quote cs = some body →
      body <:+: quote :: cs := by
    intro quote cs body hbody
    rw [← append_of_quotedBody? hbody]
    exact ⟨[quote], [quote], rfl⟩
  unfold quotedText? at h
  split at h
  · obtain ⟨body, hquoted, rfl⟩ := Option.map_eq_some_iff.mp h
    exact .expanded (hbody hquoted)
  · obtain ⟨body, hquoted, rfl⟩ := Option.map_eq_some_iff.mp h
    exact .decoded (hbody hquoted)
  · cases h

theorem isFrom_of_mem_entries (h : entry ∈ entriesOf (ofText s)) : entry.value.IsFrom s := by
  obtain ⟨key, value, hmem, hentry⟩ := mem_entriesOf.mp h
  obtain ⟨fragment, hfragment, hread⟩ := List.mem_filterMap.mp hmem
  obtain ⟨rule, _, word, rest, hsplit, hvalue, _⟩ := of_readFragment? hread
  have hrest : rest <:+: s := (of_split? hsplit).2.isInfix.trans (infix_of_mem_fragments hfragment)
  have hstart : Text.trimStart rest <:+: s := (Text.trimStart_suffix rest).isInfix.trans hrest
  have hof := of_read? hvalue
  cases value with
  | string text =>
      obtain rfl := List.mem_singleton.mp hentry
      exact (isFrom_of_quotedText? hof).trans hstart
  | number digits =>
      obtain rfl := List.mem_singleton.mp hentry
      exact .plain (hof.trans hrest)
  | symbol name =>
      obtain rfl := List.mem_singleton.mp hentry
      exact .plain (hof.trans hrest)
  | boolean value =>
      cases value with
      | true =>
          obtain rfl := List.mem_singleton.mp hentry
          exact .flag
      | false => cases hentry
  | code code =>
      obtain rfl := List.mem_singleton.mp hentry
      exact .code (hof.trans hrest)
  | group inner =>
      -- Of a group only the members that are literals are entries.
      obtain ⟨content, hcontent, rfl⟩ := hof
      rw [Value.entries] at hentry
      obtain ⟨member, hmember, rfl⟩ := List.mem_map.mp hentry
      obtain ⟨key', value', hmem', hentry'⟩ := mem_entriesOf.mp hmember
      obtain ⟨text, rfl, fragment', hfragment', hread'⟩ := of_mem_members hmem'
      obtain rfl := List.mem_singleton.mp hentry'
      obtain ⟨_, _, _, rest', hsplit', hvalue', _⟩ := of_readFragment? hread'
      have hinner : Text.trimStart rest' <:+: s :=
        ((Text.trimStart_suffix rest').trans (of_split? hsplit').2).isInfix.trans
          ((infix_of_mem_fragments hfragment').trans ((infix_of_groupContent? hcontent).trans hstart))
      exact (isFrom_of_quotedText? (of_read? hvalue')).trans hinner

end Attribute

namespace Tag

variable {content : Text} {tag : Tag} {entry : Entry}

/-- The entries of a tag: those of its tokens, and those that come from its attribute text. -/
theorem isFrom_of_mem_literalEntries (h : parse? content = some tag) (hentry : entry ∈ tag.literalEntries) :
    entry.value.IsFrom content := by
  unfold literalEntries at hentry
  split at hentry
  · rename_i text htext
    exact (Attribute.isFrom_of_mem_entries hentry).trans (attributes_infix_line h htext)
  · cases hentry

theorem of_mem_shorthandEntries (h : parse? content = some tag) (hentry : entry ∈ tag.shorthandEntries) :
    ∃ key names, entry = .literal key (Text.join [' '] names) ∧ ∀ name ∈ names, name <:+: content := by
  obtain ⟨hclasses, hids⟩ := tokens_infix_line h
  unfold shorthandEntries at hentry
  grind

end Tag

end Haml
