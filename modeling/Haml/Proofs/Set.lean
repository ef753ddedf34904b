import Haml.Element
import Mathlib.Data.List.Nodup

/-!
# Keys and values of attribute sets

Entries are put in batch after batch, those of a tag's tokens and those of its attributes, and the flags of a
batch come last. What the set says of a key does not depend on how the entries are cut into batches: the texts
for the key are combined in the order in which they are given, and flags count only without a text. Classes
and styles are merged, and otherwise the last text counts. No key comes twice, and each one stays where it came.
-/

namespace Haml

/-- The text of an entry's value, if it has one. -/
def EntryValue.text? : EntryValue → Option Text
  | .text s => some s
  | .flag => none

namespace AttributeSet

variable {set : AttributeSet} {entry : Entry} {entries : List Entry} {key : Text}

/-- Two texts of one key as one. -/
def combineTexts (key base additional : Text) : Text :=
  if key = "class".toList then Attribute.mergeClass base additional
  else if key = "style".toList then Attribute.mergeStyle base additional
  else additional

theorem combine_text (key base additional : Text) :
    combine key (.text base) (.text additional) = .text (combineTexts key base additional) := by
  simp only [combine, combineTexts]
  split
  · rfl
  · split <;> rfl

/-- The value of a key that is given one more. -/
def put (key : Text) (before : Option EntryValue) (value : EntryValue) : EntryValue :=
  match before with
  | some before => combine key before value
  | none => value

/-! ## Insertion -/

theorem get?_insert (set : AttributeSet) (entry : Entry) (key : Text) :
    (set.insert entry).get? key
      = if entry.key = key then some (put key (set.get? key) entry.value) else set.get? key := by
  obtain ⟨entries⟩ := set
  simp only [get?, insert]
  induction entries with
  | nil => by_cases h : entry.key = key <;> simp [insertEntry, put, h]
  | cons e es ih =>
      by_cases he : e.key = key
      · by_cases hentry : entry.key = key
        · simp [insertEntry, he, hentry, put]
        · have hne : ¬ key = entry.key := fun h => hentry h.symm
          simp [insertEntry, he, hentry, hne]
      · by_cases hsame : e.key = entry.key
        · have hentry : entry.key ≠ key := fun h => he (hsame.trans h)
          simp [insertEntry, hsame, hentry]
        · simp only [insertEntry, if_neg hsame, List.find?_cons, he, decide_false]
          exact ih

theorem get?_insertFlag (set : AttributeSet) (entry : Entry) (key : Text) :
    (set.insertFlag entry).get? key
      = (set.get? key).or (if entry.key = key then some entry.value else none) := by
  unfold insertFlag
  split
  · rename_i hnone
    by_cases hkey : entry.key = key
    · subst hkey
      simp only [get?, Option.isNone_iff_eq_none, Option.map_eq_none_iff] at hnone
      simp [get?, hnone]
    · simp [get?, hkey]
  · rename_i hsome
    by_cases hkey : entry.key = key
    · subst hkey
      obtain ⟨value, hvalue⟩ := Option.ne_none_iff_exists'.mp
        fun h => hsome (Option.isNone_iff_eq_none.mpr h)
      simp [hvalue]
    · simp [hkey]

/-- A key that has a value keeps it when flags are put in, and any other one is given the first flag for it. -/
theorem get?_foldl_insertFlag (set : AttributeSet) (entries : List Entry) (key : Text) :
    (entries.foldl insertFlag set).get? key
      = (set.get? key).or ((entries.find? (·.key = key)).map Entry.value) := by
  induction entries generalizing set with
  | nil => simp
  | cons first rest ih =>
      rw [List.foldl_cons, ih, get?_insertFlag, Option.or_assoc]
      by_cases hkey : first.key = key <;> simp [hkey]

/-- The texts that entries give a key, in order. -/
def textsOf (key : Text) (entries : List Entry) : List Text :=
  entries.filterMap fun entry => if entry.key = key then entry.value.text? else none

theorem get?_foldl_insert (entries : List Entry) (h : ∀ e ∈ entries, e.value ≠ .flag) :
    (entries.foldl insert set).get? key
      = (textsOf key entries).foldl (fun value text => some (put key value (.text text)))
          (set.get? key) := by
  induction entries generalizing set with
  | nil => rfl
  | cons first rest ih =>
      obtain ⟨hfirst, hrest⟩ := List.forall_mem_cons.mp h
      obtain ⟨text, htext⟩ : ∃ text, first.value = .text text := by
        cases hvalue : first.value with
        | text text => exact ⟨text, rfl⟩
        | flag => exact absurd hvalue hfirst
      rw [List.foldl_cons, ih hrest, get?_insert]
      by_cases hkey : first.key = key <;>
        simp [textsOf, hkey, htext, EntryValue.text?]

theorem textsOf_filter (key : Text) (entries : List Entry) :
    textsOf key (entries.filter (·.value ≠ .flag)) = textsOf key entries := by
  rw [textsOf, List.filterMap_filter]
  refine List.filterMap_congr fun entry _ => ?_
  cases entry.value <;> simp [EntryValue.text?]

theorem get?_foldl_valued (set : AttributeSet) (entries : List Entry) (key : Text) :
    ((entries.filter (·.value ≠ .flag)).foldl insert set).get? key
      = (textsOf key entries).foldl (fun value text => some (put key value (.text text)))
          (set.get? key) := by
  rw [get?_foldl_insert _ (fun e he => by simpa using (List.mem_filter.mp he).2), textsOf_filter]

/-- What a merge leaves of a key that the set or the entries give a text. -/
theorem get?_merge {first : Text} {rest : List Text}
    (h : (set.get? key).bind EntryValue.text? = none ∧ textsOf key entries = first :: rest
      ∨ set.get? key = some (.text first) ∧ textsOf key entries = rest) :
    (set.merge entries).get? key = some (.text (rest.foldl (combineTexts key) first)) := by
  have hfold : ∀ (texts : List Text) (text : Text),
      texts.foldl (fun value text => some (put key value (.text text))) (some (.text text))
        = some (.text (texts.foldl (combineTexts key) text)) := by
    intro texts
    induction texts with
    | nil => intro text; rfl
    | cons second more ih =>
        intro text
        have hput : put key (some (.text text)) (.text second)
            = .text (combineTexts key text second) := combine_text key text second
        rw [List.foldl_cons, List.foldl_cons, hput, ih]
  have hvalued := get?_foldl_valued set entries key
  have hmerged : (textsOf key entries).foldl (fun value text => some (put key value (.text text)))
      (set.get? key) = some (.text (rest.foldl (combineTexts key) first)) := by
    rcases h with ⟨hnone, htexts⟩ | ⟨hsome, htexts⟩
    · -- A first text takes the place of a flag.
      have hput : put key (set.get? key) (.text first) = .text first := by
        cases hvalue : set.get? key with
        | none => rfl
        | some value =>
            cases value with
            | text base => simp [hvalue, EntryValue.text?] at hnone
            | flag => rfl
      rw [htexts, List.foldl_cons, hput]
      exact hfold rest first
    · rw [hsome, htexts]
      exact hfold rest first
  rw [merge, get?_foldl_insertFlag, hvalued, hmerged]
  rfl

/-- A key without a text has flags for all of its entries. -/
theorem find?_flags_of_textsOf_eq_nil (h : textsOf key entries = []) :
    ((entries.filter (·.value = .flag)).find? (·.key = key)).map Entry.value
      = if entries.any (·.key = key) then some .flag else none := by
  induction entries with
  | nil => rfl
  | cons first rest ih =>
      have hrest : textsOf key rest = [] := by
        unfold textsOf at h ⊢
        rw [List.filterMap_eq_nil_iff] at h ⊢
        exact fun e he => h e (List.mem_cons_of_mem first he)
      by_cases hkey : first.key = key
      · have hflag : first.value = .flag := by
          cases hvalue : first.value with
          | text text => simp [textsOf, hkey, hvalue, EntryValue.text?] at h
          | flag => rfl
        simp [hkey, hflag]
      · by_cases hflag : first.value = .flag <;> simpa [hkey, hflag] using ih hrest

/-- Without a text for it, a merge gives a key at most a flag. -/
theorem get?_merge_of_textsOf_eq_nil (h : textsOf key entries = []) :
    (set.merge entries).get? key
      = (set.get? key).or (if entries.any (·.key = key) then some .flag else none) := by
  have hvalued := get?_foldl_valued set entries key
  rw [h] at hvalued
  rw [merge, get?_foldl_insertFlag, hvalued, find?_flags_of_textsOf_eq_nil h]
  rfl

/-! ## Keys -/

def keys (set : AttributeSet) : List Text := set.entries.map Entry.key

/-- A key that is new comes last, and any other one stays where it is. -/
theorem keys_insert (set : AttributeSet) (entry : Entry) :
    (set.insert entry).keys = if entry.key ∈ set.keys then set.keys else set.keys ++ [entry.key] := by
  obtain ⟨entries⟩ := set
  simp only [keys, insert]
  induction entries with
  | nil => rfl
  | cons e es ih =>
      rw [insertEntry]
      by_cases hkey : e.key = entry.key
      · simp [hkey]
      · rw [if_neg hkey, List.map_cons, ih]
        by_cases hmem : entry.key ∈ es.map Entry.key <;> simp [hmem, Ne.symm hkey]

theorem keys_insertFlag (set : AttributeSet) (entry : Entry) :
    (set.insertFlag entry).keys = if entry.key ∈ set.keys then set.keys else set.keys ++ [entry.key] := by
  have hnone : (set.get? entry.key).isNone = true ↔ entry.key ∉ set.keys := by
    simp only [get?, keys, Option.isNone_map, Option.isNone_iff_eq_none, List.find?_eq_none,
      decide_eq_true_iff, List.mem_map, not_exists, not_and]
  unfold insertFlag
  by_cases hmem : entry.key ∈ set.keys
  · rw [if_neg fun h => hnone.mp h hmem, if_pos hmem]
  · rw [if_pos (hnone.mpr hmem), if_neg hmem]
    simp [keys]

/-- Adding entries one by one gives no key twice, if each one adds its key once at most. -/
theorem nodup_keys_foldl {add : AttributeSet → Entry → AttributeSet}
    (hadd : ∀ set entry, (add set entry).keys
      = if entry.key ∈ set.keys then set.keys else set.keys ++ [entry.key])
    (h : set.keys.Nodup) (entries : List Entry) : (entries.foldl add set).keys.Nodup := by
  induction entries generalizing set with
  | nil => exact h
  | cons first rest ih =>
      refine ih ?_
      rw [hadd]
      split
      · exact h
      · rename_i hnew
        exact List.nodup_append'.mpr ⟨h, by simp, by simpa using hnew⟩

theorem keys_prefix_foldl {add : AttributeSet → Entry → AttributeSet}
    (hadd : ∀ set entry, (add set entry).keys
      = if entry.key ∈ set.keys then set.keys else set.keys ++ [entry.key])
    (set : AttributeSet) (entries : List Entry) : set.keys <+: (entries.foldl add set).keys := by
  induction entries generalizing set with
  | nil => exact List.prefix_rfl
  | cons first rest ih =>
      refine List.IsPrefix.trans ?_ (ih (add set first))
      rw [hadd]
      split
      · exact List.prefix_rfl
      · exact List.prefix_append _ _

/-- A merge leaves the keys of the set where they are, and puts new ones behind them. -/
theorem keys_prefix_merge (set : AttributeSet) (entries : List Entry) :
    set.keys <+: (set.merge entries).keys :=
  (keys_prefix_foldl keys_insert set _).trans (keys_prefix_foldl keys_insertFlag _ _)

theorem nodup_keys_merge (h : set.keys.Nodup) (entries : List Entry) :
    (set.merge entries).keys.Nodup :=
  nodup_keys_foldl keys_insertFlag (nodup_keys_foldl keys_insert h _) _

/-! ## Batches -/

/-- What entries say of a key: their texts for it, combined in order; without any, a flag if they have the key. -/
def valueOf? (key : Text) (entries : List Entry) : Option EntryValue :=
  match textsOf key entries with
  | first :: rest => some (.text (rest.foldl (combineTexts key) first))
  | [] => if entries.any (·.key = key) then some .flag else none

theorem valueOf?_of_cons {first : Text} {rest : List Text} (h : textsOf key entries = first :: rest) :
    valueOf? key entries = some (.text (rest.foldl (combineTexts key) first)) := by
  rw [valueOf?, h]

theorem valueOf?_of_nil (h : textsOf key entries = []) :
    valueOf? key entries = if entries.any (·.key = key) then some .flag else none := by
  rw [valueOf?, h]

theorem textsOf_append (key : Text) (before entries : List Entry) :
    textsOf key (before ++ entries) = textsOf key before ++ textsOf key entries :=
  List.filterMap_append

/-- The set says of each key what the entries say, and no key comes twice. -/
structure Tells (set : AttributeSet) (entries : List Entry) : Prop where
  get?_eq : ∀ key, set.get? key = valueOf? key entries
  nodup_keys : set.keys.Nodup

theorem tells_empty : empty.Tells [] := ⟨fun _ => rfl, List.nodup_nil⟩

variable {before : List Entry}

theorem Tells.merge (h : set.Tells before) (entries : List Entry) :
    (set.merge entries).Tells (before ++ entries) := by
  refine ⟨fun key => ?_, nodup_keys_merge h.nodup_keys entries⟩
  have hset := h.get?_eq key
  have htexts := textsOf_append key before entries
  cases hbefore : textsOf key before with
  | cons first rest =>
      rw [hbefore, List.cons_append] at htexts
      rw [valueOf?_of_cons hbefore] at hset
      rw [get?_merge (.inr ⟨hset, rfl⟩), valueOf?_of_cons htexts, List.foldl_append]
  | nil =>
      rw [hbefore, List.nil_append] at htexts
      rw [valueOf?_of_nil hbefore] at hset
      cases hentries : textsOf key entries with
      | cons first rest =>
          have hnone : (set.get? key).bind EntryValue.text? = none := by
            rw [hset]
            split <;> rfl
          rw [get?_merge (.inl ⟨hnone, hentries⟩), valueOf?_of_cons (htexts.trans hentries)]
      | nil =>
          rw [get?_merge_of_textsOf_eq_nil hentries, valueOf?_of_nil (htexts.trans hentries), hset,
            List.any_append]
          cases before.any (·.key = key) <;> rfl

theorem Tells.foldl_merge (h : set.Tells before) (batches : List (List Entry)) :
    (batches.foldl AttributeSet.merge set).Tells (before ++ batches.flatten) := by
  induction batches generalizing set before with
  | nil => simpa using h
  | cons entries rest ih =>
      rw [List.foldl_cons, List.flatten_cons, ← List.append_assoc]
      exact ih (h.merge entries)

theorem keys_prefix_foldl_merge (set : AttributeSet) (batches : List (List Entry)) :
    set.keys <+: (batches.foldl merge set).keys := by
  induction batches generalizing set with
  | nil => exact List.prefix_rfl
  | cons entries rest ih => exact (keys_prefix_merge set entries).trans (ih (set.merge entries))

/--
A set that is made of batches says of each key what their entries say of it together, however they are cut into
batches. No key comes twice, and the keys after some of the batches stay at the front in their order.
-/
theorem get?_foldl_merge (batches : List (List Entry)) :
    (∀ key, (batches.foldl merge empty).get? key = valueOf? key batches.flatten)
      ∧ (batches.foldl merge empty).keys.Nodup
      ∧ ∀ n, ((batches.take n).foldl merge empty).keys <+: (batches.foldl merge empty).keys := by
  have htells := tells_empty.foldl_merge batches
  rw [List.nil_append] at htells
  refine ⟨htells.get?_eq, htells.nodup_keys, fun n => ?_⟩
  have hprefix := keys_prefix_foldl_merge ((batches.take n).foldl merge empty) (batches.drop n)
  rwa [← List.foldl_append, List.take_append_drop] at hprefix

/-! ## Rendering -/

theorem infix_render {text : Text} (h : set.get? key = some (.text text)) :
    key ++ '=' :: '"' :: (text ++ ['"']) <:+: set.render := by
  obtain ⟨entry, hfind, hvalue⟩ := Option.map_eq_some_iff.mp h
  obtain ⟨before, after, hentries⟩ := List.append_of_mem (List.mem_of_find?_eq_some hfind)
  have hkey : entry.key = key := by simpa using List.find?_some hfind
  have hrender : entry.render = key ++ '=' :: '"' :: (text ++ ['"']) := by
    simp only [Entry.render, hvalue, hkey]
  rw [render, hentries, List.flatMap_append, List.flatMap_cons, ← hrender]
  refine (List.suffix_cons ' ' entry.render).isInfix.trans ?_
  exact ⟨_, _, List.append_assoc _ _ _⟩

end AttributeSet

/-! ## Elements -/

namespace Tag

variable {tag : Tag} {key : Text}

/-- The texts that a tag's tokens and attributes give a key, in order. -/
def textsOf (tag : Tag) (key : Text) : List Text :=
  AttributeSet.textsOf key (tag.shorthandEntries ++ tag.literalEntries)

theorem get?_attributeSet {first : Text} {rest : List Text} (h : tag.textsOf key = first :: rest) :
    tag.attributeSet.get? key
      = some (.text (rest.foldl (AttributeSet.combineTexts key) first)) := by
  have hset := ((AttributeSet.tells_empty.merge tag.shorthandEntries).merge tag.literalEntries).get?_eq key
  rw [List.nil_append] at hset
  exact hset.trans (AttributeSet.valueOf?_of_cons h)

/-- The only text of a key, or the last one of a key whose texts are not merged. -/
theorem get?_attributeSet_of_last {text : Text}
    (h : tag.textsOf key = [text]
      ∨ key ≠ "class".toList ∧ key ≠ "style".toList ∧ (tag.textsOf key).getLast? = some text) :
    tag.attributeSet.get? key = some (.text text) := by
  rcases h with hsingle | ⟨hclass, hstyle, hlast⟩
  · exact get?_attributeSet hsingle
  · have hcombine : AttributeSet.combineTexts key = fun _ additional => additional := by
      funext base additional
      rw [AttributeSet.combineTexts, if_neg hclass, if_neg hstyle]
    cases htexts : tag.textsOf key with
    | nil => rw [htexts] at hlast; cases hlast
    | cons first rest =>
        rw [get?_attributeSet htexts, hcombine]
        rw [htexts] at hlast
        have hfold : ∀ (more : List Text) (before : Text),
            (before :: more).getLast? = some (more.foldl (fun _ additional => additional) before) := by
          intro more
          induction more with
          | nil => intro before; rfl
          | cons second more ih => intro before; rw [List.getLast?_cons_cons, ih]; rfl
        rw [hfold rest first, Option.some.injEq] at hlast
        rw [hlast]

/-- What combining keeps of each of two texts, an element keeps of every text. -/
theorem get?_attributeSet_of_keeps {P : Text → Prop} {text : Text} (hmem : text ∈ tag.textsOf key)
    (htext : P text) (hkeeps : ∀ base additional, P base ∨ P additional →
      P (AttributeSet.combineTexts key base additional)) :
    ∃ combined, tag.attributeSet.get? key = some (.text combined) ∧ P combined := by
  have hfold : ∀ (rest : List Text) (before : Text), (P before ∨ text ∈ rest) →
      P (rest.foldl (AttributeSet.combineTexts key) before) := by
    intro rest
    induction rest with
    | nil => exact fun before h => h.resolve_right List.not_mem_nil
    | cons first rest ih =>
        intro before h
        refine ih _ ?_
        rcases h with h | h
        · exact .inl (hkeeps before first (.inl h))
        · rcases List.mem_cons.mp h with rfl | h
          · exact .inl (hkeeps before text (.inr htext))
          · exact .inr h
  cases htexts : tag.textsOf key with
  | nil => rw [htexts] at hmem; cases hmem
  | cons first rest =>
      refine ⟨_, get?_attributeSet htexts, hfold rest first ?_⟩
      rw [htexts] at hmem
      rcases List.mem_cons.mp hmem with rfl | hmem
      · exact .inl htext
      · exact .inr hmem

/-! ## Start tags -/

theorem infix_startTag {text : Text} (h : tag.attributeSet.get? key = some (.text text)) :
    key ++ '=' :: '"' :: (text ++ ['"']) <:+: tag.startTag := by
  refine (AttributeSet.infix_render h).trans ⟨'<' :: tag.name, ['>'], ?_⟩
  simp [startTag]

theorem startTag_prefix_write (tag : Tag) (hasChildren : Bool) :
    tag.startTag <+: (tag.write hasChildren).markup := by
  unfold write
  simp only
  split
  · exact List.prefix_rfl
  · split
    · split
      · exact List.prefix_append _ _
      · rw [List.append_assoc]
        exact List.prefix_append _ _
    · split
      · exact List.prefix_rfl
      · rw [List.append_assoc]
        exact List.prefix_append _ _

end Tag

end Haml
