import Haml.Proofs.Sealed
import Haml.Proofs.Set

/-!
# Reading written attributes

A reader of the page finds the attributes of a start tag one after the other: a space, a key, and maybe
a value that goes up to the first double quote outside of code tags. Main statement: of the attributes of
a line without ERB delimiters the reader finds exactly those that were written, and no key twice.
-/

namespace Haml

namespace Entry

/-! ## Reading -/

/--
The value that a text starts with, up to the first double quote outside of code tags, and what follows the
quote; the text is read on from inside or outside of a tag.
-/
def splitValue? : (inTag : Bool) → Text → Option (Text × Text)
  | _, [] => none
  | false, '<' :: '%' :: cs => (splitValue? true cs).map (Prod.map ('<' :: '%' :: ·) id)
  | true, '%' :: '>' :: cs => (splitValue? false cs).map (Prod.map ('%' :: '>' :: ·) id)
  | inTag, c :: cs =>
    if !inTag && c = '"' then some ([], cs)
    else (splitValue? inTag cs).map (Prod.map (c :: ·) id)

/-- Whether a character goes on with a key: a space or an equals sign ends it. -/
def continuesKey (c : Char) : Bool := c ≠ ' ' && c ≠ '='

/-- The entry that a text starts with, after a space, and what follows it. -/
def read? : Text → Option (Entry × Text)
  | ' ' :: cs =>
    match cs.dropWhile continuesKey with
    | '=' :: '"' :: rest =>
      (splitValue? false rest).map (Prod.map (⟨cs.takeWhile continuesKey, .text ·⟩) id)
    | '=' :: _ => none
    | rest => some (⟨cs.takeWhile continuesKey, .flag⟩, rest)
  | _ => none

variable {inTag : Bool} {s rest value : Text} {entry : Entry}

theorem append_of_splitValue? (h : splitValue? inTag s = some (value, rest)) : value ++ '"' :: rest = s := by
  fun_induction splitValue? inTag s generalizing value with
  | case1 => cases h
  | case2 cs ih =>
      obtain ⟨⟨inner, _⟩, hinner, heq⟩ := Option.map_eq_some_iff.mp h
      cases heq
      exact congrArg ('<' :: '%' :: ·) (ih hinner)
  | case3 cs ih =>
      obtain ⟨⟨inner, _⟩, hinner, heq⟩ := Option.map_eq_some_iff.mp h
      cases heq
      exact congrArg ('%' :: '>' :: ·) (ih hinner)
  | case4 inTag c cs _ _ hquote =>
      obtain ⟨_, hc⟩ := Bool.and_eq_true_iff.mp hquote
      obtain rfl : c = '"' := by simpa using hc
      cases h
      rfl
  | case5 inTag c cs _ _ _ ih =>
      obtain ⟨⟨inner, _⟩, hinner, heq⟩ := Option.map_eq_some_iff.mp h
      cases heq
      exact congrArg (c :: ·) (ih hinner)

theorem length_of_read? (h : read? s = some (entry, rest)) : rest.length < s.length := by
  unfold read? at h
  split at h
  · rename_i cs
    have hle : (cs.dropWhile continuesKey).length ≤ cs.length := (cs.dropWhile_suffix _).length_le
    split at h
    · rename_i value hvalue
      obtain ⟨⟨inner, _⟩, hinner, heq⟩ := Option.map_eq_some_iff.mp h
      cases heq
      rw [hvalue, ← append_of_splitValue? hinner] at hle
      simp only [List.length_cons, List.length_append, id] at hle ⊢
      omega
    · cases h
    · cases h
      rw [List.length_cons]
      omega
  · cases h

end Entry

/-- The entries that written attributes are read as, if all of the text can be read. -/
def AttributeSet.readEntries? : Text → Option (List Entry)
  | [] => some []
  | c :: cs =>
    match _h : Entry.read? (c :: cs) with
    | some (entry, rest) => (readEntries? rest).map (entry :: ·)
    | none => none
termination_by s => s.length
decreasing_by exact Entry.length_of_read? ‹_›

/-! ## Reading what was written -/

namespace Entry

variable {inTag : Bool} {c d : Char} {s : Text}

theorem splitValue?_delimiter (h : Attribute.isDelimiter inTag c d = true) (s : Text) :
    splitValue? inTag (c :: d :: s)
      = ((splitValue? (!inTag) s).map (Prod.map (d :: ·) id)).map (Prod.map (c :: ·) id) := by
  rw [Option.map_map]
  cases inTag <;>
  · obtain ⟨rfl, rfl⟩ : _ ∧ _ := by simpa [Attribute.isDelimiter] using h
    rw [splitValue?]
    rfl

theorem splitValue?_cons (h : ∀ d ∈ s.head?, Attribute.isDelimiter inTag c d = false) :
    splitValue? inTag (c :: s)
      = if !inTag && c = '"' then some ([], s) else (splitValue? inTag s).map (Prod.map (c :: ·) id) := by
  rw [splitValue?]
  · rintro cs rfl rfl rfl
    simp [Attribute.isDelimiter] at h
  · rintro cs rfl rfl rfl
    simp [Attribute.isDelimiter] at h

theorem splitValue?_output_append {code value rest : Text} (h : ¬ ['%', '>'] <:+: code)
    (hs : splitValue? false s = some (value, rest)) :
    splitValue? false (Erb.output code ++ s) = some (Erb.output code ++ value, rest) := by
  have hput : ∀ part : Text, part.foldr (fun c => Option.map (Prod.map (c :: ·) id)) (some (value, rest))
      = some (part ++ value, rest) := by
    intro part
    induction part with
    | nil => rfl
    | cons c cs ih => simp [ih]
  rw [Attribute.read_output_append splitValue?_delimiter (fun hcut => ?_) h, hs, hput]
  simpa using splitValue?_cons hcut

/-- A sealed value is read up to the quote behind it. -/
theorem splitValue?_of_sealed {value : Text} (h : Sealed value) (rest : Text) :
    splitValue? false (value ++ '"' :: rest) = some (value, rest) := by
  induction h with
  | nil => rfl
  | @char c s hc hcut _ ih =>
      have hread : ∀ d ∈ (s ++ '"' :: rest).head?, Attribute.isDelimiter false c d = false := by
        cases s with
        | nil => simp [Attribute.isDelimiter]
        | cons e es => exact fun d hd => Attribute.isDelimiter_eq_false_of_not_prefix_cons hcut d hd
      rw [List.cons_append, splitValue?_cons hread, ih]
      simp [hc]
  | @tag code s hcode _ ih =>
      rw [List.append_assoc]
      exact splitValue?_output_append hcode ih

/-- A key holds no character that could end it, or that stands around attributes. -/
theorem of_isKey {key : Text} (h : Attribute.IsKey key) :
    ∀ c ∈ key, c ≠ ' ' ∧ c ≠ '=' ∧ c ≠ '"' ∧ c ≠ '>' := by
  intro c hc
  have hchar := h c hc
  refine ⟨?_, ?_, ?_, ?_⟩ <;>
  · rintro rfl
    exact absurd hchar (by decide)

/-- A key is read up to the first character behind it, if that one ends a key. -/
theorem span_key_append {key tail : Text} (hkey : Attribute.IsKey key)
    (htail : ∀ c ∈ tail.head?, continuesKey c = false) :
    (key ++ tail).takeWhile continuesKey = key ∧ (key ++ tail).dropWhile continuesKey = tail := by
  have hcontinues : ∀ c ∈ key, continuesKey c = true := by
    intro c hc
    obtain ⟨hblank, hequals, _⟩ := of_isKey hkey c hc
    simp [continuesKey, hblank, hequals]
  rw [List.takeWhile_append_of_pos hcontinues, List.dropWhile_append_of_pos hcontinues]
  cases tail with
  | nil => simp
  | cons c cs =>
      have hc := htail c rfl
      rw [List.takeWhile_cons_of_neg (by simp [hc]), List.dropWhile_cons_of_neg (by simp [hc])]
      simp

theorem read?_render_append {entry : Entry} (hkey : Attribute.IsKey entry.key)
    (hvalue : entry.value.IsSealed) {rest : Text} (hrest : ∀ c ∈ rest.head?, c = ' ') :
    read? (' ' :: (entry.render ++ rest)) = some (entry, rest) := by
  obtain ⟨key, value⟩ := entry
  cases value with
  | text text =>
      have hequals : ∀ c ∈ ('=' :: '"' :: (text ++ '"' :: rest)).head?, continuesKey c = false := by
        simp [continuesKey]
      obtain ⟨htakes, hdrops⟩ := span_key_append hkey hequals
      have hrender : render ⟨key, .text text⟩ ++ rest = key ++ '=' :: '"' :: (text ++ '"' :: rest) := by
        simp [render]
      rw [hrender, read?, htakes, hdrops]
      simp [splitValue?_of_sealed (hvalue text rfl)]
  | flag =>
      have hblank : ∀ c ∈ rest.head?, continuesKey c = false := by
        intro c hc
        rw [hrest c hc]
        rfl
      obtain ⟨htakes, hdrops⟩ := span_key_append hkey hblank
      have hrender : render ⟨key, .flag⟩ ++ rest = key ++ rest := rfl
      rw [hrender, read?, htakes, hdrops]
      cases rest with
      | nil => rfl
      | cons c cs =>
          obtain rfl := hrest c rfl
          rfl

end Entry

namespace AttributeSet

theorem readEntries?_of_read? {s rest : Text} {entry : Entry} (h : Entry.read? s = some (entry, rest)) :
    readEntries? s = (readEntries? rest).map (entry :: ·) := by
  cases s with
  | nil => cases h
  | cons c cs =>
      rw [readEntries?]
      split
      · rename_i heq
        rw [h] at heq
        cases heq
        rfl
      · rename_i heq
        rw [h] at heq
        cases heq

theorem readEntries?_render {set : AttributeSet} (hkeys : ∀ entry ∈ set.entries, Attribute.IsKey entry.key)
    (hvalues : ∀ entry ∈ set.entries, entry.value.IsSealed) :
    readEntries? set.render = some set.entries := by
  obtain ⟨entries⟩ := set
  simp only [render]
  induction entries with
  | nil => rw [List.flatMap_nil, readEntries?]
  | cons entry rest ih =>
      obtain ⟨hkey, hkeys⟩ := List.forall_mem_cons.mp hkeys
      obtain ⟨hvalue, hvalues⟩ := List.forall_mem_cons.mp hvalues
      have hrest : ∀ c ∈ (rest.flatMap fun entry => ' ' :: entry.render).head?, c = ' ' := by
        cases rest with
        | nil => simp
        | cons next more => simp
      rw [List.flatMap_cons, List.cons_append,
        readEntries?_of_read? (Entry.read?_render_append hkey hvalue hrest), ih hkeys hvalues]
      rfl

end AttributeSet

/-! ## Elements -/

/--
The attributes of an element are read back as they are: if the line of the element holds no ERB delimiter,
a reader who takes keys up to a space or an equals sign, and values up to the first double quote outside of
code tags, finds exactly the entries of the element, in order. No key holds a character that could end it,
and none comes twice.
-/
theorem readEntries?_attributeSet {content : Text} {tag : Tag} (hopen : ¬ ['<', '%'] <:+: content)
    (hclose : ¬ ['%', '>'] <:+: content) (h : Tag.parse? content = some tag) :
    AttributeSet.readEntries? tag.attributeSet.render = some tag.attributeSet.entries
      ∧ (∀ entry ∈ tag.attributeSet.entries, ∀ c ∈ entry.key,
          c ≠ ' ' ∧ c ≠ '=' ∧ c ≠ '"' ∧ c ≠ '>')
      ∧ tag.attributeSet.keys.Nodup := by
  have hkeys : ∀ entry ∈ tag.attributeSet.entries, Attribute.IsKey entry.key :=
    fun entry => Tag.isKey_of_mem_attributeSet
  refine ⟨?_, fun entry hentry => Entry.of_isKey (hkeys entry hentry), ?_⟩
  · exact AttributeSet.readEntries?_render hkeys (Tag.isSealed_of_mem_attributeSet h hopen hclose)
  · have hempty : AttributeSet.empty.keys.Nodup := List.nodup_nil
    exact AttributeSet.nodup_keys_merge (AttributeSet.nodup_keys_merge hempty _) _

/-- A class is merged with an interpolation that holds quotes, and a group has a literal that holds them. -/
theorem readEntries?_attributeSet_link :
    let content := "%a.b\x7b class: \"<#\x7bf \"x\"\x7d\", data: \x7b q: '\"hi\"' \x7d \x7d".toList
    let entries : List Entry :=
      [⟨"class".toList, .text "b <%= \"<#\x7bf \"x\"\x7d\" %>".toList⟩,
        ⟨"data-q".toList, .text "&quot;hi&quot;".toList⟩]
    ∃ tag, Tag.parse? content = some tag ∧ tag.attributeSet.entries = entries
      ∧ AttributeSet.readEntries? tag.attributeSet.render = some entries
      ∧ tag.attributeSet.keys.Nodup := by
  intro content entries
  obtain ⟨tag, h, hentries⟩ : ∃ tag, Tag.parse? content = some tag ∧ tag.attributeSet.entries = entries :=
    ⟨_, rfl, by decide +kernel⟩
  obtain ⟨hread, _, hkeys⟩ := readEntries?_attributeSet (by decide) (by decide) h
  exact ⟨tag, h, hentries, hentries ▸ hread, hkeys⟩

end Haml
