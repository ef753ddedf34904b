import Haml.Conversion
import Haml.Proofs.Class
import Haml.Proofs.Element
import Haml.Proofs.RuleOrder
import Haml.Proofs.Set

/-!
# Embedded code

Where the code in a page comes from, and what happens to it on the way. Most code is written as it
stands in its line. Two rewritings know nothing of the code in the texts that they rewrite, that of
escaped hyphens in running text and that of escapes in string literals; and a class value that is
merged with another is cut at its blanks. Main statement: the code of a line is opaque exactly if it
holds nothing that these take for theirs. What counts as code in attributes leaves nothing out: the
markers of every string outside of groups are code.
-/

namespace Haml

/-- The way of code into the page: the rewritings that its text goes through. -/
inductive Passage where
  | kept
  /-- The running text around it loses the backslashes before hyphens. -/
  | hyphens
  /-- The string literal around it is decoded and its quotes are written as references. -/
  | literal
  deriving DecidableEq, Repr

namespace Passage

def rewrite : Passage → Text → Text
  | .kept, code => code
  | .hyphens, code => Rendering.unescapeHyphens code
  | .literal, code => Entry.escapeQuotes (Attribute.unescape code)

/-- Whether code holds nothing that is rewritten. -/
def Keeps : Passage → Text → Prop
  | .kept, _ => True
  | .hyphens, code => ¬ ['\\', '-'] <:+: code
  | .literal, code => ¬ Attribute.HasEscape code

theorem rewrite_eq_self_iff (passage : Passage) (code : Text) :
    passage.rewrite code = code ↔ passage.Keeps code := by
  cases passage with
  | kept => exact iff_of_true rfl trivial
  | hyphens => exact Rendering.unescapeHyphens_eq_self_iff code
  | literal => exact Attribute.escapeQuotes_unescape_eq_self_iff code

end Passage

/-- A piece of code that a line embeds. -/
structure Embedded where
  opening : Text
  passage : Passage
  source : Text
  /-- The class value of the element, if that is merged from several and the code stands in it. -/
  classes : Option Text
  deriving DecidableEq, Repr

namespace Embedded

/-- A tag of the page with given code. -/
def tagOf (embedded : Embedded) (code : Text) : Text := embedded.opening ++ code ++ " %>".toList

/-- The texts of the page one of which has to hold the tag: the line, or the tokens of the classes. -/
def places (embedded : Embedded) (body : Text) : List Text :=
  match embedded.classes with
  | some classes => Attribute.classTokens classes
  | none => [body]

/-- Whether the code is written as it stands in the line, and its tag is in one place. -/
def Intact (embedded : Embedded) (body : Text) : Prop :=
  embedded.passage.rewrite embedded.source = embedded.source
    ∧ ∃ place ∈ embedded.places body, embedded.tagOf embedded.source <:+: place

/--
Whether the code holds nothing that is rewritten on its way, and, in a class value that is merged, no
blank of its tag comes after an early end of the tag.
-/
def Plain (embedded : Embedded) : Prop :=
  embedded.passage.Keeps embedded.source
    ∧ (embedded.classes.isSome = true → Attribute.hasGap false (Erb.output embedded.source) = false)

end Embedded

/-! ## Code in attributes -/

namespace Attribute

/-- The text that a double-quoted literal gives its entry. -/
def literalText (body : Text) : Text :=
  Entry.escapeQuotes (Interpolation.expand (unescape body))

/-- Whether a fragment has a key and, for its value, a double-quoted literal with a given body. -/
def IsLiteral (fragment key body : Text) : Prop :=
  ∃ form : KeyForm, ∃ word rest s, form.split? fragment = some (word, rest)
    ∧ Text.trimStart rest = '"' :: s ∧ quotedBody? '"' s = some body ∧ key = normalizeKey word

/-- The code in an attribute text, with the key and the text of the entry in which it is written. -/
inductive Embeds (s : Text) : (key text : Text) → Passage → (source : Text) → Prop where
  | code {fragment key source : Text} : fragment ∈ fragments s →
      ofFragment? fragment = some ⟨key, .code source⟩ →
      Embeds s key (Erb.output source) .kept source
  | literal {fragment key body source : Text} : fragment ∈ fragments s →
      IsLiteral fragment key body → IsMarkerOf body source →
      Embeds s key (literalText body) .literal source
  | member {fragment word rest content inner key body source : Text} : fragment ∈ fragments s →
      KeyForm.bare.split? fragment = some (word, rest) →
      groupContent? (Text.trimStart rest) = some content → inner ∈ fragments content →
      IsLiteral inner key body → IsMarkerOf body source →
      Embeds s (normalizeKey word ++ '-' :: key) (literalText body) .literal source

variable {s fragment key text body source : Text} {passage : Passage}

theorem IsLiteral.body_infix_fragment (h : IsLiteral fragment key body) : body <:+: fragment := by
  obtain ⟨form, word, rest, s, hsplit, hrest, hbody, _⟩ := h
  have hs : body <:+: '"' :: s := by
    rw [← append_of_quotedBody? hbody]
    exact ⟨['"'], ['"'], by simp⟩
  rw [← hrest] at hs
  exact hs.trans ((Text.trimStart_suffix rest).trans (of_split? hsplit).2).isInfix

theorem IsLiteral.readFragment? (h : IsLiteral fragment key body)
    (members : Text → List Attribute) :
    Attribute.readFragment? rules members fragment
      = some ⟨key, .string (Interpolation.expand (unescape body))⟩ := by
  obtain ⟨form, word, rest, s, hsplit, hrest, hbody, rfl⟩ := h
  exact readFragment?_of_literal members hsplit hrest hbody

theorem Embeds.source_infix_text (h : Embeds s key text passage source) : source <:+: s := by
  cases h with
  | code hfragment hread =>
      obtain ⟨_, _, _, rest, hsplit, hvalue, _⟩ := of_readFragment? hread
      exact (of_read? hvalue).trans
        ((of_split? hsplit).2.isInfix.trans (infix_of_mem_fragments hfragment))
  | literal hfragment hliteral hmarker =>
      exact hmarker.infix_body.trans
        (hliteral.body_infix_fragment.trans (infix_of_mem_fragments hfragment))
  | member hfragment hsplit hgroup hinner hliteral hmarker =>
      have hcontent := (infix_of_groupContent? hgroup).trans
        ((Text.trimStart_suffix _).trans (of_split? hsplit).2).isInfix
      exact hmarker.infix_body.trans (hliteral.body_infix_fragment.trans
        ((infix_of_mem_fragments hinner).trans
          (hcontent.trans (infix_of_mem_fragments hfragment))))

theorem Embeds.mem_entries (h : Embeds s key text passage source) :
    ⟨key, .text text⟩ ∈ entriesOf (ofText s) := by
  cases h with
  | code hfragment hread =>
      refine mem_entriesOf.mpr ⟨key, .code source, List.mem_filterMap.mpr ⟨_, hfragment, hread⟩, ?_⟩
      exact List.mem_singleton.mpr rfl
  | literal hfragment hliteral hmarker =>
      refine mem_entriesOf.mpr ⟨key, .string _, List.mem_filterMap.mpr
        ⟨_, hfragment, hliteral.readFragment? _⟩, List.mem_singleton.mpr rfl⟩
  | @member fragment word rest content inner key body _ hfragment hsplit hgroup hinner hliteral _ =>
      have hread : ofFragment? fragment
          = some ⟨normalizeKey word, .group (members rules content)⟩ := by
        simp [ofFragment?, ofFragmentBy?, readFragment?, rules, Rule.read?, hsplit,
          ValueForm.read?, hgroup]
      have hmember : (⟨key, .string (Interpolation.expand (unescape body))⟩ : Attribute)
          ∈ members rules content :=
        List.mem_filter.mpr ⟨List.mem_filterMap.mpr ⟨inner, hinner, hliteral.readFragment? _⟩, rfl⟩
      refine mem_entriesOf.mpr ⟨_, _, List.mem_filterMap.mpr ⟨_, hfragment, hread⟩, ?_⟩
      refine List.mem_map.mpr ⟨.literal key _, mem_entriesOf.mpr ⟨key, _, hmember, ?_⟩, rfl⟩
      exact List.mem_singleton.mpr rfl

theorem Embeds.output_infix (h : Embeds s key text passage source) :
    Erb.output (passage.rewrite source) <:+: text := by
  cases h with
  | code => exact List.infix_rfl
  | literal _ _ hmarker => exact output_infix_of_isMarkerOf hmarker
  | member _ _ _ _ _ hmarker => exact output_infix_of_isMarkerOf hmarker

/--
A fragment that is read as a string is a literal in one of the two kinds of quotes, and each marker of a
double-quoted one is embedded code.
-/
theorem embeds_of_literal (hfragment : fragment ∈ fragments s)
    (h : ofFragment? fragment = some ⟨key, .string text⟩) :
    (∃ form : KeyForm, ∃ word rest cs, form.split? fragment = some (word, rest)
        ∧ Text.trimStart rest = '\'' :: cs)
      ∨ ∃ body, text = Interpolation.expand (unescape body)
        ∧ ∀ before code after, Interpolation.segments (unescape body) = before ++ .marker code :: after →
          ∃ source, Embeds s key (literalText body) .literal source ∧ unescape source = code := by
  obtain ⟨rule, _, word, rest, hsplit, hvalue, rfl⟩ := of_readFragment? h
  have htext : quotedText? (Text.trimStart rest) = some text := of_read? hvalue
  unfold quotedText? at htext
  split at htext
  · rename_i cs hrest
    obtain ⟨body, hbody, rfl⟩ := Option.map_eq_some_iff.mp htext
    refine .inr ⟨body, rfl, fun before code after hsegments => ?_⟩
    obtain ⟨source, hmarker, hsource⟩ := exists_isMarkerOf hsegments
    have hliteral : IsLiteral fragment (normalizeKey word) body :=
      ⟨rule.key, word, rest, cs, hsplit, hrest, hbody, rfl⟩
    exact ⟨source, .literal hfragment hliteral hmarker, hsource⟩
  · rename_i cs hrest
    exact .inl ⟨rule.key, word, rest, cs, hsplit, hrest⟩
  · cases htext

end Attribute

/-! ## Code in statements -/

namespace Rendering

def withoutComment (code : Text) : Text :=
  match Code.comment? code with
  | some (before, _) => Text.trimEnd before
  | none => code

theorem withoutComment_infix_code (code : Text) : withoutComment code <:+: code := by
  unfold withoutComment
  split
  · rename_i before remark hcomment
    exact (Text.trimEnd_prefix_self before).isInfix.trans (Code.prefix_of_comment? hcomment).isInfix
  · exact List.infix_rfl

theorem ofOutput_eq (code : Text) :
    ∃ body, ofOutput code = .line body (endIf (Code.hasDoBlock (withoutComment code)))
      ∧ Erb.output (withoutComment code) <+: body := by
  unfold ofOutput withoutComment
  cases Code.comment? code with
  | some cut => exact ⟨_, rfl, List.prefix_append _ _⟩
  | none => exact ⟨_, rfl, List.prefix_rfl⟩

end Rendering

def Escaping.opening : Escaping → Text
  | .escaped => "<%= ".toList
  | .unescaped => "<%== ".toList

namespace Tag

variable {tag : Tag}

theorem output_infix_write {escaping : Escaping} {code : Text} (tag : Tag)
    (hvoid : Html.isVoid tag.name = false) (h : tag.content = .output escaping code)
    (hasChildren : Bool) :
    escaping.opening ++ code ++ " %>".toList <:+: (tag.write hasChildren).markup := by
  unfold write
  simp only [hvoid, h, Bool.false_eq_true, if_false]
  cases escaping <;> split
  · exact (List.suffix_append tag.startTag (Erb.output code)).isInfix
  · exact ⟨tag.startTag, Html.endTag tag.name, rfl⟩
  · exact (List.suffix_append tag.startTag (Erb.unescapedOutput code)).isInfix
  · exact ⟨tag.startTag, Html.endTag tag.name, rfl⟩

theorem marker_infix_write {text code : Text} {before after : List Interpolation.Segment} (tag : Tag)
    (hvoid : Html.isVoid tag.name = false) (h : tag.content = .text text)
    (hsegments : Interpolation.segments text = before ++ .marker code :: after) :
    Erb.output code <:+: (tag.write false).markup := by
  have hexpand : Erb.output code <:+: Interpolation.expand text := by
    rw [Interpolation.expand_of_segments hsegments]
    exact ⟨_, _, List.append_assoc _ _ _⟩
  unfold write
  simp only [hvoid, h, Bool.false_eq_true, if_false]
  exact hexpand.trans ⟨_, _, rfl⟩

theorem mem_textsOf {attributes key text : Text} (h : tag.attributes = some attributes)
    (hentry : ⟨key, .text text⟩ ∈ Attribute.entriesOf (Attribute.ofText attributes)) :
    text ∈ tag.textsOf key := by
  refine List.mem_filterMap.mpr ⟨⟨key, .text text⟩, List.mem_append_right _ ?_, ?_⟩
  · rw [literalEntries, h]
    exact hentry
  · exact if_pos rfl

end Tag

/--
Whether a text that a tag gives a key is written by itself, or with all other texts of the key: it is
the only one, or the last one of a key whose texts are not merged, or a style.
-/
def Tag.Writes (tag : Tag) (key text : Text) : Prop :=
  tag.textsOf key = [text]
    ∨ key ≠ "class".toList ∧ key ≠ "style".toList ∧ (tag.textsOf key).getLast? = some text
    ∨ key = "style".toList

/-- The code that a statement embeds in its line. -/
inductive Statement.Embeds (statement : Statement) (hasChildren : Bool) : Embedded → Prop where
  /-- The code of an output, `=`. -/
  | output : statement.kind = .output →
      Embeds statement hasChildren ⟨"<%= ".toList, .kept,
        Rendering.withoutComment (Text.trim (statement.stripped.drop 1)), none⟩
  | code : statement.kind = .code →
      Embeds statement hasChildren ⟨"<% ".toList, .kept, Text.trim (statement.stripped.drop 1), none⟩
  | escapedOutput : statement.kind = .escapedOutput →
      Embeds statement hasChildren ⟨"<%= ".toList, .kept, Text.trim (statement.stripped.drop 2), none⟩
  | unescapedOutput : statement.kind = .unescapedOutput →
      Embeds statement hasChildren ⟨"<%== ".toList, .kept, Text.trim (statement.stripped.drop 2), none⟩
  | runningText {source : Text} {before after : List Interpolation.Segment} :
      statement.kind = .text →
      Interpolation.segments statement.stripped = before ++ .marker source :: after →
      Embeds statement hasChildren ⟨"<%= ".toList, .hyphens, source, none⟩
  | tagOutput {tag : Tag} {escaping : Escaping} {source : Text} : statement.tag? = some tag →
      Html.isVoid tag.name = false → tag.content = .output escaping source →
      Embeds statement hasChildren ⟨escaping.opening, .kept, source, none⟩
  /-- A marker in the text after a tag, if no lines are nested under the tag. -/
  | tagText {tag : Tag} {text source : Text} {before after : List Interpolation.Segment} :
      statement.tag? = some tag → Html.isVoid tag.name = false → hasChildren = false →
      tag.content = .text text →
      Interpolation.segments text = before ++ .marker source :: after →
      Embeds statement hasChildren ⟨"<%= ".toList, .kept, source, none⟩
  /-- Code in an attribute that is written. -/
  | inAttribute {tag : Tag} {attributes key text source : Text} {passage : Passage} :
      statement.tag? = some tag → tag.attributes = some attributes →
      Attribute.Embeds attributes key text passage source → tag.Writes key text →
      Embeds statement hasChildren ⟨"<%= ".toList, passage, source, none⟩
  /-- Code in one of several class values, which are merged. -/
  | inClasses {tag : Tag} {attributes text source classes : Text} {passage : Passage} :
      statement.tag? = some tag → tag.attributes = some attributes →
      Attribute.Embeds attributes "class".toList text passage source →
      2 ≤ (tag.textsOf "class".toList).length →
      tag.attributeSet.get? "class".toList = some (.text classes) →
      Embeds statement hasChildren ⟨"<%= ".toList, passage, source, some classes⟩

/-- Where a page has embedded code. -/
structure Embedded.IsPlaced (embedded : Embedded) (statement : Statement) (body : Text) : Prop where
  source : embedded.source <:+: statement.text
  /-- The line has the code's tag, with what the code has become. -/
  line : embedded.classes = none →
    embedded.tagOf (embedded.passage.rewrite embedded.source) <:+: body
  /-- The line has the class value that the code is merged into. -/
  merged : ∀ classes ∈ embedded.classes, "class=\"".toList ++ (classes ++ ['"']) <:+: body

/-- Whether all code of a statement is written as it stands there. -/
def Statement.Opaque (statement : Statement) (hasChildren : Bool) : Prop :=
  ∀ embedded body closer, statement.Embeds hasChildren embedded →
    statement.render hasChildren = .line body closer →
    embedded.source <:+: statement.text ∧ embedded.Intact body

namespace Statement

variable {statement : Statement} {hasChildren : Bool} {embedded : Embedded}

theorem stripped_infix_text (statement : Statement) : statement.stripped <:+: statement.text :=
  Text.trim_infix_self statement.text

theorem trim_drop_infix_text (statement : Statement) (n : Nat) :
    Text.trim (statement.stripped.drop n) <:+: statement.text :=
  (Text.trim_infix_self _).trans ((List.drop_suffix n _).isInfix.trans statement.stripped_infix_text)

theorem output_infix_startTag {tag : Tag} {attributes key text source : Text} {passage : Passage}
    (hattributes : tag.attributes = some attributes)
    (h : Attribute.Embeds attributes key text passage source) (hwrites : tag.Writes key text) :
    Erb.output (passage.rewrite source) <:+: tag.startTag := by
  have hmem : text ∈ tag.textsOf key := Tag.mem_textsOf hattributes h.mem_entries
  obtain ⟨combined, hget, hcombined⟩ : ∃ combined,
      tag.attributeSet.get? key = some (.text combined)
        ∧ Erb.output (passage.rewrite source) <:+: combined := by
    rcases hwrites with hsingle | hlast | rfl
    · exact ⟨text, Tag.get?_attributeSet_of_last (.inl hsingle), h.output_infix⟩
    · exact ⟨text, Tag.get?_attributeSet_of_last (.inr hlast), h.output_infix⟩
    · exact Tag.get?_attributeSet_of_keeps hmem h.output_infix
        fun _ _ => Attribute.output_infix_mergeStyle
  refine hcombined.trans (List.IsInfix.trans ?_ (Tag.infix_startTag hget))
  exact ⟨key ++ ['=', '"'], ['"'], by simp⟩

theorem Embeds.isPlaced (h : statement.Embeds hasChildren embedded) :
    ∃ body closer, statement.render hasChildren = .line body closer
      ∧ embedded.IsPlaced statement body := by
  have hkept : ∀ {opening source body : Text}, source <:+: statement.text →
      opening ++ source ++ " %>".toList <:+: body →
      (⟨opening, .kept, source, none⟩ : Embedded).IsPlaced statement body :=
    fun hsource hbody => ⟨hsource, fun _ => hbody, fun _ h => absurd h (Option.not_mem_none _)⟩
  cases h with
  | output hkind =>
      obtain ⟨body, hline, hbody⟩ :=
        Rendering.ofOutput_eq (Text.trim (statement.stripped.drop 1))
      have hrender : statement.render hasChildren
          = Rendering.ofOutput (Text.trim (statement.stripped.drop 1)) := by
        rw [kind] at hkind
        simp only [render, Rendering.ofContent, hkind]
      have hsource := (Rendering.withoutComment_infix_code _).trans (statement.trim_drop_infix_text 1)
      exact ⟨body, _, hrender.trans hline, hkept hsource hbody.isInfix⟩
  | code hkind =>
      rw [kind] at hkind
      have hline : statement.render hasChildren = Rendering.ofCode statement.stripped := by
        simp only [render, Rendering.ofContent, hkind]
      exact ⟨_, _, hline, hkept (statement.trim_drop_infix_text 1) List.infix_rfl⟩
  | escapedOutput hkind =>
      rw [kind] at hkind
      have hline : statement.render hasChildren
          = .line (Erb.output (Text.trim (statement.stripped.drop 2))) none := by
        simp only [render, Rendering.ofContent, hkind]
      exact ⟨_, _, hline, hkept (statement.trim_drop_infix_text 2) List.infix_rfl⟩
  | unescapedOutput hkind =>
      rw [kind] at hkind
      have hline : statement.render hasChildren
          = .line (Erb.unescapedOutput (Text.trim (statement.stripped.drop 2))) none := by
        simp only [render, Rendering.ofContent, hkind]
      exact ⟨_, _, hline, hkept (statement.trim_drop_infix_text 2) List.infix_rfl⟩
  | runningText hkind hsegments =>
      rw [kind] at hkind
      have hline : statement.render hasChildren = Rendering.ofRunningText statement.stripped := by
        simp only [render, Rendering.ofContent, hkind]
      refine ⟨_, _, hline, ⟨?_, fun _ => ?_, fun _ h => absurd h (Option.not_mem_none _)⟩⟩
      · exact (Interpolation.infix_of_segments hsegments).trans statement.stripped_infix_text
      · exact Rendering.output_infix_ofRunningText hsegments
  | @tagOutput tag escaping source htag hvoid hcontent =>
      obtain ⟨hparse, hline⟩ := of_tag? htag
      refine ⟨_, _, hline hasChildren, hkept ?_ ?_⟩
      · exact (Tag.content_infix_line hparse (.inr ⟨escaping, hcontent⟩)).trans statement.stripped_infix_text
      · exact tag.output_infix_write hvoid hcontent hasChildren
  | @tagText tag text source before after htag hvoid hchildren hcontent hsegments =>
      obtain ⟨hparse, hline⟩ := of_tag? htag
      refine ⟨_, _, hline hasChildren, hkept ?_ ?_⟩
      · exact (Interpolation.infix_of_segments hsegments).trans
          ((Tag.content_infix_line hparse (.inl hcontent)).trans statement.stripped_infix_text)
      · exact hchildren ▸ tag.marker_infix_write hvoid hcontent hsegments
  | @inAttribute tag attributes key text source passage htag hattributes hembeds hwrites =>
      obtain ⟨hparse, hline⟩ := of_tag? htag
      refine ⟨_, _, hline hasChildren, ⟨?_, fun _ => ?_, fun _ h => absurd h (Option.not_mem_none _)⟩⟩
      · exact hembeds.source_infix_text.trans
          ((Tag.attributes_infix_line hparse hattributes).trans statement.stripped_infix_text)
      · exact (output_infix_startTag hattributes hembeds hwrites).trans
          (tag.startTag_prefix_write hasChildren).isInfix
  | @inClasses tag attributes text source classes passage htag hattributes hembeds _ hclasses =>
      obtain ⟨hparse, hline⟩ := of_tag? htag
      refine ⟨_, _, hline hasChildren, ⟨?_, fun h => absurd h (Option.some_ne_none _), fun found hfound => ?_⟩⟩
      · exact hembeds.source_infix_text.trans
          ((Tag.attributes_infix_line hparse hattributes).trans statement.stripped_infix_text)
      · obtain rfl := Option.mem_some.mp hfound
        exact (Tag.infix_startTag hclasses).trans (tag.startTag_prefix_write hasChildren).isInfix

/-! ## Code that a tag embeds -/

section

variable {tag : Tag} {attributes key text : Text} (htag : statement.tag? = some tag)
  (hattributes : tag.attributes = some attributes)

include htag hattributes

/-- Code in the attributes of a tag is embedded, unless a later value of its key takes the place of its text. -/
theorem embeds_of_attributes {source : Text} {passage : Passage}
    (h : Attribute.Embeds attributes key text passage source)
    (hlast : key = "class".toList ∨ key = "style".toList ∨ (tag.textsOf key).getLast? = some text) :
    ∃ classes, statement.Embeds hasChildren ⟨"<%= ".toList, passage, source, classes⟩ := by
  have hmem : text ∈ tag.textsOf key := Tag.mem_textsOf hattributes h.mem_entries
  by_cases hstyle : key = "style".toList
  · exact ⟨none, .inAttribute htag hattributes h (.inr (.inr hstyle))⟩
  by_cases hclass : key = "class".toList
  · subst hclass
    cases htexts : tag.textsOf "class".toList with
    | nil => rw [htexts] at hmem; cases hmem
    | cons first rest =>
        cases rest with
        | nil =>
            rw [htexts, List.mem_singleton] at hmem
            exact ⟨none, .inAttribute htag hattributes h (.inl (hmem ▸ htexts))⟩
        | cons second rest =>
            have htwo : 2 ≤ (tag.textsOf "class".toList).length := by
              rw [htexts]
              exact Nat.le_add_left 2 rest.length
            exact ⟨some _, .inClasses htag hattributes h htwo (Tag.get?_attributeSet htexts)⟩
  · have hlast := (hlast.resolve_left hclass).resolve_left hstyle
    exact ⟨none, .inAttribute htag hattributes h (.inr (.inl ⟨hclass, hstyle, hlast⟩))⟩

/--
A value that is read as a string is a literal in one of the two kinds of quotes, and each marker of a
double-quoted one is embedded code, unless a later value of the key takes the place of the string.
-/
theorem embeds_of_string {fragment : Text} (hfragment : fragment ∈ Attribute.fragments attributes)
    (h : Attribute.ofFragment? fragment = some ⟨key, .string text⟩)
    (hlast : key = "class".toList ∨ key = "style".toList
      ∨ (tag.textsOf key).getLast? = some (Entry.escapeQuotes text)) :
    (∃ form : Attribute.KeyForm, ∃ word rest cs, form.split? fragment = some (word, rest)
        ∧ Text.trimStart rest = '\'' :: cs)
      ∨ ∃ body, text = Interpolation.expand (Attribute.unescape body)
        ∧ ∀ before code after,
          Interpolation.segments (Attribute.unescape body) = before ++ .marker code :: after →
          ∃ source classes, Attribute.unescape source = code
            ∧ statement.Embeds hasChildren ⟨"<%= ".toList, .literal, source, classes⟩ := by
  rcases Attribute.embeds_of_literal hfragment h with hsingle | ⟨body, rfl, hmarkers⟩
  · exact .inl hsingle
  · refine .inr ⟨body, rfl, fun before code after hsegments => ?_⟩
    obtain ⟨source, hembeds, hsource⟩ := hmarkers before code after hsegments
    obtain ⟨classes, hstatement⟩ := embeds_of_attributes htag hattributes hembeds hlast
    exact ⟨source, classes, hsource, hstatement⟩

end

/-! ## Opaque code -/

/-- Merging class values keeps the tag of code, unless its code ends it early. -/
theorem Embeds.of_classes {classes : Text} (h : statement.Embeds hasChildren embedded)
    (hclasses : embedded.classes = some classes) :
    embedded.opening = "<%= ".toList
      ∧ (Attribute.hasGap false (Erb.output (embedded.passage.rewrite embedded.source)) = false →
        Erb.output (embedded.passage.rewrite embedded.source) <:+: classes) := by
  cases h with
  | @inClasses tag attributes text source found passage htag hattributes hembeds _ hfound =>
      obtain rfl : found = classes := Option.some.inj hclasses
      refine ⟨rfl, fun hgap => ?_⟩
      obtain ⟨combined, hget, hcombined⟩ := Tag.get?_attributeSet_of_keeps
        (Tag.mem_textsOf hattributes hembeds.mem_entries) hembeds.output_infix
        fun _ _ => Attribute.output_infix_mergeClass hgap
      rw [hfound] at hget
      cases hget
      exact hcombined
  | _ => cases hclasses

theorem Embeds.intact_iff (h : statement.Embeds hasChildren embedded) {body : Text}
    (hplaced : embedded.IsPlaced statement body) : embedded.Intact body ↔ embedded.Plain := by
  rw [Embedded.Intact, Embedded.Plain, Passage.rewrite_eq_self_iff]
  refine and_congr_right fun hkeeps => ?_
  have hself := (embedded.passage.rewrite_eq_self_iff embedded.source).mpr hkeeps
  cases hclasses : embedded.classes with
  | none =>
      have hline := hplaced.line hclasses
      rw [hself] at hline
      simpa [Embedded.places, hclasses] using hline
  | some classes =>
      obtain ⟨hopening, hmerged⟩ := h.of_classes hclasses
      have htag : embedded.tagOf embedded.source = Erb.output embedded.source := by
        rw [Embedded.tagOf, hopening]
        rfl
      rw [hself] at hmerged
      simp only [Embedded.places, hclasses, htag, Option.isSome_some, forall_const]
      constructor
      · rintro ⟨token, htoken, hpart⟩
        exact Attribute.hasGap_of_infix_token htoken hpart
      · exact fun hgap => Attribute.exists_token_of_infix hgap (hmerged hgap)

/--
All code of a statement is a part of its text, and is placed in the line that the statement becomes. It
is written as it stands, in one place, exactly if it is plain: in running text it holds no hyphen after
a backslash; in a string literal it holds no double quote, and no backslash before a quote or a
backslash; and if it stands in one of several class values, no blank of its tag comes after an early end
of the tag, as there is none if it holds no closing delimiter.
-/
theorem opaque_iff (statement : Statement) (hasChildren : Bool) :
    (∀ embedded, statement.Embeds hasChildren embedded →
        ∃ body closer, statement.render hasChildren = .line body closer
          ∧ embedded.IsPlaced statement body ∧ (embedded.Intact body ↔ embedded.Plain))
      ∧ (statement.Opaque hasChildren
        ↔ ∀ embedded, statement.Embeds hasChildren embedded → embedded.Plain)
      ∧ ∀ embedded : Embedded, embedded.passage.Keeps embedded.source →
        ¬ ['%', '>'] <:+: embedded.source → embedded.Plain := by
  refine ⟨fun embedded h => ?_, ⟨fun hall embedded h => ?_, fun hplain embedded body closer h hline
    => ?_⟩, fun embedded hkeeps hnone => ⟨hkeeps, fun _ => Attribute.hasGap_output_of_not_infix hnone⟩⟩
  · obtain ⟨body, closer, hline, hplaced⟩ := h.isPlaced
    exact ⟨body, closer, hline, hplaced, h.intact_iff hplaced⟩
  · obtain ⟨body, closer, hline, hplaced⟩ := h.isPlaced
    exact (h.intact_iff hplaced).mp (hall embedded body closer h hline).2
  · obtain ⟨found, closer', hline', hplaced⟩ := h.isPlaced
    rw [hline] at hline'
    cases hline'
    exact ⟨hplaced.source, (h.intact_iff hplaced).mpr (hplain embedded h)⟩

/-- A string in the code of running text loses the backslash before its hyphen. -/
theorem not_opaque_of_escaped_hyphen :
    ¬ (Statement.single ⟨"Hello #\x7bx.delete(\"\\-\")\x7d".toList, false⟩).Opaque false
      ∧ (convert "Hello #\x7bx.delete(\"\\-\")\x7d".toList).page
        = "Hello <%= x.delete(\"-\") %>\n".toList := by
  refine ⟨fun hall => ?_, by decide +kernel⟩
  have hsegments : Interpolation.segments "Hello #\x7bx.delete(\"\\-\")\x7d".toList
      = "Hello ".toList.map .char ++ .marker "x.delete(\"\\-\")".toList :: [] := by
    decide +kernel
  have hembeds : (Statement.single ⟨"Hello #\x7bx.delete(\"\\-\")\x7d".toList, false⟩).Embeds false
      ⟨"<%= ".toList, .hyphens, "x.delete(\"\\-\")".toList, none⟩ :=
    .runningText rfl hsegments
  obtain ⟨body, closer, hline, _⟩ := hembeds.isPlaced
  have hkept := (hall _ body closer hembeds hline).2.1
  exact absurd hkept (by decide)

end Statement

end Haml
