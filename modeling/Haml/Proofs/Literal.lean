import Haml.Proofs.Constant
import Haml.Proofs.RuleOrder

/-!
# Reading constant attributes

A fragment with a bare key is read by the first form that accepts its value. No constant is accepted by a
form that stands before its own, so that each is read as what it is. Main statement: constant attributes
that are written one after the other are read as these attributes.
-/

namespace Haml

namespace Attribute

variable {key : Text} {value : Value} {members : Text → List Attribute}

/-! ## Fragments with a bare key -/

/-- The forms of values behind a bare key, in the order in which they are tried. -/
def bareForms : List ValueForm :=
  [.group, .call, .access, .string, .boolean, .number, .symbol, .code]

theorem keyWord?_append (h : IsBareKey key) {c : Char} (hc : isKeyChar c = false) (s : Text) :
    keyWord? isKeyStart (key ++ c :: s) = some (key, c :: s) := by
  obtain ⟨d, hd, hstart⟩ := h.head
  obtain ⟨ds, rfl⟩ : ∃ ds, key = d :: ds := List.head?_eq_some_iff.mp hd
  have hkey := (List.forall_mem_cons.mp h.isKey).2
  rw [List.cons_append, keyWord?.eq_2, if_pos hstart, takeWhile_append_cons hc, dropWhile_append_cons hc,
    List.takeWhile_eq_self_iff.mpr hkey, List.dropWhile_eq_nil_iff.mpr hkey, List.nil_append]

theorem split?_bare (h : IsBareKey key) (s : Text) :
    KeyForm.split? .bare (key ++ ':' :: s) = some (key, s) := by
  rw [KeyForm.split?, keyWord?_append h (by decide)]
  rfl

theorem split?_quoted (h : IsBareKey key) {quote : Char} (hquote : Code.isQuote quote = true) (s : Text) :
    KeyForm.split? .quoted (quote :: (key ++ quote :: ':' :: s)) = some (key, s) := by
  have hends : isKeyChar quote = false := by
    rcases Code.eq_of_isQuote hquote with rfl | rfl <;> decide
  rw [KeyForm.split?, if_pos hquote, keyWord?_append h hends]
  simp [Text.after?, beforeMark?, Text.trimStart, show Text.isBlank ':' = false from rfl]

theorem readFragment?_bare (h : IsBareKey key) (s : Text) :
    readFragment? rules members (key ++ ':' :: s)
      = (bareForms.findSome? fun form => form.read? members s).map (⟨normalizeKey key, ·⟩) := by
  have hbare := split?_bare h s
  have hother : ∀ {form : KeyForm}, form ≠ .bare → form.split? (key ++ ':' :: s) = none := by
    intro form hne
    cases hform : form.split? (key ++ ':' :: s) with
    | none => rfl
    | some parts => exact absurd (form_unique hform hbare) hne
  have hsymbol : KeyForm.split? .symbol (key ++ ':' :: s) = none := hother (by decide)
  have hquoted : KeyForm.split? .quoted (key ++ ':' :: s) = none := hother (by decide)
  rw [List.map_findSome?]
  simp only [readFragment?, rules, bareForms, Rule.read?, List.findSome?_cons, List.findSome?_nil, hbare,
    hsymbol, hquoted, Option.bind_some, Option.bind_none, Function.comp_apply]

/-! ## Quoted values -/

/-- A key as it stands before its colon: bare, or between two equal quotes. -/
inductive IsWrittenKey : Text → Text → Prop where
  | bare {key : Text} : IsBareKey key → IsWrittenKey key key
  | quoted {key : Text} {quote : Char} : Code.isQuote quote = true → IsBareKey key →
      IsWrittenKey (quote :: (key ++ [quote])) key

/-- A quoted value behind a key and a colon is read as that value. -/
theorem IsWrittenKey.readFragment? {written value text : Text} (h : IsWrittenKey written key)
    (htext : quotedText? value = some text) :
    Attribute.readFragment? rules members (written ++ ':' :: ' ' :: value)
      = some ⟨normalizeKey key, .string text⟩ := by
  obtain ⟨quote, body, rfl, hquote, _⟩ := of_quotedText? htext
  have hblank : Text.isBlank quote = false := by
    rcases Code.eq_of_isQuote hquote with rfl | rfl <;> decide
  have hvalue : Text.trimStart (' ' :: quote :: (body ++ [quote])) = quote :: (body ++ [quote]) :=
    Text.trimStart_append_cons Text.isBlank_of_mem_space hblank _
  rw [← hvalue] at htext
  cases h with
  | bare hkey => exact readFragment?_of_quotedText? members (split?_bare hkey _) htext
  | quoted hquote hkey =>
      have hsplit := split?_quoted hkey hquote (' ' :: quote :: (body ++ [quote]))
      simpa using readFragment?_of_quotedText? members hsplit htext

theorem IsWrittenKey.ofFragment? {written value text : Text} (h : IsWrittenKey written key)
    (htext : quotedText? value = some text) :
    Attribute.ofFragment? (written ++ ':' :: ' ' :: value) = some ⟨normalizeKey key, .string text⟩ :=
  h.readFragment? htext

/-! ## Constants -/

theorem trimStart_space {c : Char} (h : Text.isBlank c = false) (cs : Text) :
    Text.trimStart (' ' :: c :: cs) = c :: cs :=
  Text.trimStart_append_cons Text.isBlank_of_mem_space h cs

/-- A value that is read in one of the forms before code is read in it. -/
theorem findSome?_bareForms (form : ValueForm) {s : Text} (hmem : form ∈ bareForms.dropLast)
    (h : form.read? members s = some value) :
    (bareForms.findSome? fun form => form.read? members s) = some value := by
  have hcode : ∀ other ∈ bareForms.dropLast, other ≠ .code := by decide
  have hbefore : (bareForms.dropLast.findSome? fun form => form.read? members s) = some value := by
    have hsome : (bareForms.dropLast.findSome? fun form => form.read? members s).isSome :=
      List.findSome?_isSome_iff.mpr ⟨form, hmem, Option.isSome_iff_exists.mpr ⟨value, h⟩⟩
    obtain ⟨value', hfirst⟩ := Option.isSome_iff_exists.mp hsome
    obtain ⟨first, hfirstMem, hread⟩ := List.exists_of_findSome?_eq_some hfirst
    obtain rfl := valueForm_unique (hcode first hfirstMem) (hcode form hmem) hread h
    rw [hfirst, ← hread, h]
  rw [show bareForms = bareForms.dropLast ++ [.code] from rfl, List.findSome?_append, hbefore, Option.some_or]

theorem isInteger_append {sign digits : Text} (hsign : sign ∈ [[], ['-']]) (hne : digits ≠ [])
    (hdigits : ∀ c ∈ digits, Text.isDigit c = true) : isInteger (sign ++ digits) = true := by
  rcases (by simpa using hsign : sign = [] ∨ sign = ['-']) with rfl | rfl
  · rw [List.nil_append]
    unfold isInteger
    split
    · exact absurd (hdigits '-' List.mem_cons_self) (by decide)
    · simpa [hne] using hdigits
  · simpa [isInteger, hne] using hdigits

theorem findSome?_number {sign digits : Text} (hsign : sign ∈ [[], ['-']]) (hne : digits ≠ [])
    (hdigits : ∀ c ∈ digits, Text.isDigit c = true) :
    (bareForms.findSome? fun form => form.read? members (' ' :: (sign ++ digits)))
      = some (.number (sign ++ digits)) := by
  obtain ⟨c, cs, hcs⟩ := List.exists_cons_of_ne_nil (List.append_ne_nil_of_right_ne_nil sign hne)
  have hkey : isKeyChar c = true := isKeyChar_of_mem_number hsign hdigits c (by simp [hcs])
  have hinteger := isInteger_append hsign hne hdigits
  rw [hcs] at hinteger ⊢
  refine findSome?_bareForms .number (by decide) ?_
  rw [ValueForm.read?, trimStart_space (isBlank_of_isKeyChar hkey), if_pos hinteger]

theorem findSome?_symbol {first : Char} {word mark : Text} (hfirst : Text.isIdentStart first = true)
    (hword : ∀ c ∈ word, Text.isWord c = true) (hmark : mark ∈ [[], ['?'], ['!']]) :
    (bareForms.findSome? fun form => form.read? members (' ' :: ':' :: first :: (word ++ mark)))
      = some (.symbol (first :: (word ++ mark))) := by
  have hending : (word ++ mark).dropWhile Text.isWord = mark := by
    rw [List.dropWhile_append_of_pos hword]
    rcases (by simpa using hmark : mark = [] ∨ mark = ['?'] ∨ mark = ['!']) with rfl | rfl | rfl <;> rfl
  have hname : symbolName? (':' :: first :: (word ++ mark)) = some (first :: (word ++ mark)) := by
    have hmark' : (mark = [] || mark = ['?'] || mark = ['!']) = true := by
      simpa [or_assoc] using hmark
    rw [symbolName?, hending, hfirst, hmark']
    rfl
  refine findSome?_bareForms .symbol (by decide) ?_
  rw [ValueForm.read?, trimStart_space (by decide), hname, Option.map_some]

theorem findSome?_boolean (value : Bool) :
    (bareForms.findSome? fun form => form.read? members (' ' :: (Value.boolean value).source))
      = some (.boolean value) := by
  cases value <;> rfl

/-! ## Groups -/

theorem newline_notMem_escape {text : Text} (h : '\n' ∉ text) : '\n' ∉ escape text := by
  induction text with
  | nil => exact h
  | cons c cs ih =>
      obtain ⟨hc, hcs⟩ := List.ne_and_not_mem_of_not_mem_cons h
      rw [escape]
      split <;> simp [hc, ih hcs]

theorem IsConstantString.newline_notMem {attr : Attribute} (h : attr.IsConstantString) :
    '\n' ∉ attr.source := by
  obtain ⟨hkey, htext⟩ := h
  have hword : '\n' ∉ _ := fun hmem => absurd (hkey.isKey '\n' hmem) (by decide)
  simp [source, Value.source, quote, hword, newline_notMem_escape htext.newline_notMem]

/-- Between its braces a group of strings holds its members. -/
theorem groupContent?_source {group : List Attribute} (h : ∀ member ∈ group, member.IsConstantString) :
    groupContent? (Value.group group).source
      = some (' ' :: (Text.join ", ".toList (sources group) ++ [' '])) := by
  have hline : (Value.group group).source.contains '\n' = false := by
    have hjoin : '\n' ∉ Text.join ", ".toList (sources group) :=
      Text.notMem_join (by decide) (forall_mem_sources fun member hmember => (h member hmember).newline_notMem)
    simpa [Value.source] using hjoin
  have hone := fun c hc => Code.countDelimiters_of_notMem (c := c) hc 1
  have hspace : Code.past? (Code.countDelimiters '{' '}') .code 1 [' '] = some (.code, 1) := rfl
  have henclosed : Code.IsEnclosed (' ' :: (Text.join ", ".toList (sources group) ++ [' '])) := by
    have hrest := (Code.past?_trans (past?_sources h hone rfl) [' ']).trans hspace
    exact Code.isEnclosed_iff.mpr ((Code.past?_trans hspace _).trans hrest)
  have hbraced := Code.braced?_of_isEnclosed henclosed []
  have hsource : (Value.group group).source
      = '{' :: (' ' :: (Text.join ", ".toList (sources group) ++ [' ']) ++ ['}']) := by
    simp [Value.source]
  have hlast : (Value.group group).source.getLast? = some '}' := by
    rw [hsource, ← List.cons_append, List.getLast?_concat]
  rw [groupContent?, hline, hlast, hsource, hbraced]
  rfl

theorem filterMap_source {read? : Text → Option Attribute} {attributes : List Attribute}
    (h : ∀ attr ∈ attributes, read? attr.source = some attr.normalized) :
    (attributes.map source).filterMap read? = attributes.map normalized := by
  have heq : List.filterMap (read? ∘ source) attributes = attributes.filterMap (some ∘ normalized) :=
    List.filterMap_congr h
  rw [List.filterMap_map, heq, List.filterMap_eq_map]

theorem members_source {group : List Attribute} (h : ∀ member ∈ group, member.IsConstantString) :
    Attribute.members rules (' ' :: (Text.join ", ".toList (sources group) ++ [' ']))
      = allNormalized group := by
  have hspace := Text.isBlank_of_mem_space
  have hfragments : fragments (' ' :: (Text.join ", ".toList (sources group) ++ [' ']))
      = sources group := by
    have hparts : ∀ part ∈ sources group, IsFragment part := forall_mem_sources fun member hmember => by
      obtain ⟨hkey, htext⟩ := h member hmember
      exact IsConstant.isFragment ⟨hkey, .string htext⟩
    exact (fragments_join hparts hspace hspace :)
  have hread : ∀ member ∈ group,
      readFragment? rules (fun _ => []) member.source = some member.normalized := by
    intro member hmember
    obtain ⟨hkey, _⟩ := h member hmember
    exact (IsWrittenKey.bare hkey).readFragment? (quotedText?_quote _)
  have hstring : ∀ member ∈ group.map normalized, member.value.isString = true := by
    refine List.forall_mem_map.mpr fun member hmember => ?_
    obtain ⟨_, _⟩ := h member hmember
    rfl
  rw [Attribute.members, hfragments, sources_eq_map, filterMap_source hread,
    List.filter_eq_self.mpr hstring, allNormalized_eq_map]

theorem findSome?_group {group : List Attribute} (h : ∀ member ∈ group, member.IsConstantString) :
    (bareForms.findSome? fun form =>
        form.read? (Attribute.members rules) (' ' :: (Value.group group).source))
      = some (.group (allNormalized group)) := by
  refine findSome?_bareForms .group (by decide) ?_
  rw [ValueForm.read?, Value.source, trimStart_space (by decide), ← Value.source,
    groupContent?_source h, Option.map_some, members_source h]

/-! ## Constant attributes -/

theorem ofFragment?_source {attr : Attribute} (h : attr.IsConstant) :
    ofFragment? attr.source = some attr.normalized := by
  obtain ⟨key, value⟩ := attr
  have hbare : readFragment? rules (Attribute.members rules) (key ++ ':' :: ' ' :: value.source) = _ :=
    readFragment?_bare h.key (' ' :: value.source)
  rw [ofFragment?, ofFragmentBy?, source, normalized]
  cases h.value with
  | string => exact (IsWrittenKey.bare h.key).ofFragment? (quotedText?_quote _)
  | number hsign hne hdigits => rw [hbare, Value.source, findSome?_number hsign hne hdigits]; rfl
  | symbol hfirst hword hmark => rw [hbare, Value.source, findSome?_symbol hfirst hword hmark]; rfl
  | boolean value => rw [hbare, findSome?_boolean]; rfl
  | group hmembers => rw [hbare, findSome?_group hmembers]; rfl

/--
Constant attributes that are written one after the other are read as these attributes, in their order and
under their normalised keys.
-/
theorem ofText_sources {attributes : List Attribute} (h : ∀ attr ∈ attributes, attr.IsConstant) :
    ofText (Text.join ", ".toList (attributes.map source)) = attributes.map normalized := by
  have hfragments : fragments (Text.join ", ".toList (attributes.map source)) = attributes.map source := by
    have hparts : ∀ part ∈ attributes.map source, IsFragment part :=
      List.forall_mem_map.mpr fun attr hattr => (h attr hattr).isFragment
    simpa using fragments_join hparts (List.forall_mem_nil _) (List.forall_mem_nil _)
  rw [ofText, ofTextBy, hfragments]
  exact filterMap_source fun attr hattr => ofFragment?_source (h attr hattr)

/-- Quotes, commas and braces in strings end neither a string nor a group. -/
theorem ofText_sources_nested :
    ofText "data_set: \x7b on: 'it\\'s, \x7d', -x_y: '' \x7d, n: -12, kind: :sure!, open: true, t: '\x7b\\\\\"'".toList
      = [⟨"data-set".toList, .group
            [⟨"on".toList, .string "it's, \x7d".toList⟩, ⟨"-x_y".toList, .string []⟩]⟩,
          ⟨"n".toList, .number "-12".toList⟩, ⟨"kind".toList, .symbol "sure!".toList⟩,
          ⟨"open".toList, .boolean true⟩, ⟨"t".toList, .string "\x7b\\\"".toList⟩] := by
  have hconstant : ∀ attr ∈ ([
      ⟨"data_set".toList, .group
        [⟨"on".toList, .string "it's, \x7d".toList⟩, ⟨"-x_y".toList, .string []⟩]⟩,
      ⟨"n".toList, .number (['-'] ++ "12".toList)⟩,
      ⟨"kind".toList, .symbol ('s' :: ("ure".toList ++ ['!']))⟩,
      ⟨"open".toList, .boolean true⟩,
      ⟨"t".toList, .string "\x7b\\\"".toList⟩] : List Attribute), attr.IsConstant := by
    simp only [List.forall_mem_cons, List.not_mem_nil, false_imp_iff, implies_true, and_true]
    refine ⟨⟨by decide, .group ?_⟩, ⟨by decide, .number (by decide) (by decide) (List.all_eq_true.mp rfl)⟩,
      ⟨by decide, .symbol (by decide) (List.all_eq_true.mp rfl) (by decide)⟩, ⟨by decide, .boolean true⟩,
      ⟨by decide, .string (by decide)⟩⟩
    simp only [List.forall_mem_cons, List.not_mem_nil, false_imp_iff, implies_true, and_true]
    exact ⟨.intro (by decide) (by decide), .intro (by decide) (by decide)⟩
  exact ofText_sources hconstant

end Attribute

end Haml
