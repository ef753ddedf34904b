import Haml.Rendering
import Haml.Proofs.Key

/-!
# Written elements

A tag line is written in one of three ways: with a start tag alone, with the end tag at its end, or
with the end tag owed. In the last case the line does not end with the end tag, since a start tag never
looks like one at its end.
-/

namespace Haml

/-- The name of an element: one character or more, each of them one that may stand in names. -/
structure Html.IsName (name : Text) : Prop where
  ne_nil : name ≠ []
  isNameChar : ∀ c ∈ name, Text.isNameChar c = true

namespace Tag

variable {tag : Tag} {name : Text}

/-! ## Names -/

theorem isName_of_parse? {content : Text} (h : parse? content = some tag) :
    Html.IsName tag.name := by
  unfold parse? at h
  split at h
  · rename_i cs
    simp only at h
    obtain ⟨hne, h⟩ := Option.ite_none_left_eq_some.mp h
    cases h
    exact ⟨hne, fun c hc => List.mem_takeWhile_imp hc⟩
  · obtain ⟨_, h⟩ := Option.ite_none_left_eq_some.mp h
    cases h
    have hgeneric : Html.genericElement.all Text.isNameChar = true := by decide
    exact ⟨List.cons_ne_nil _ _, List.all_eq_true.mp hgeneric⟩

/-! ## What a line ends with -/

theorem suffix_of_concat_suffix {s t : Text} {c d : Char} (h : s ++ [c] <:+ t ++ [d]) :
    c = d ∧ s <:+ t := by
  rcases List.suffix_concat_iff.mp h with hnil | ⟨front, heq, hfront⟩
  · cases s <;> cases hnil
  · obtain ⟨rfl, hlast⟩ := List.append_inj' heq rfl
    exact ⟨List.singleton_inj.mp hlast, hfront⟩

/-- A line that ends with an end tag has a character of the name before its last one. -/
theorem isNameChar_of_endTag_suffix (hname : Html.IsName name) {s : Text} {c : Char}
    (h : Html.endTag name <:+ s ++ [c] ++ ['>']) : Text.isNameChar c = true := by
  obtain ⟨init, last, rfl⟩ := (List.eq_nil_or_concat' name).resolve_left hname.ne_nil
  have hfront := (suffix_of_concat_suffix h).2
  rw [← List.append_assoc] at hfront
  obtain ⟨rfl, _⟩ := suffix_of_concat_suffix hfront
  exact hname.isNameChar last (by simp)

/-- Behind a blank and a key no end tag begins. -/
theorem not_suffix_key (hname : Html.IsName name) {key : Text} (hkey : Attribute.IsKey key)
    (s : Text) : ¬ '/' :: name <:+ s ++ ' ' :: key := by
  intro h
  have hslash : '/' ∉ key := fun hmem => absurd (hkey '/' hmem) (by decide)
  have hblank : ' ' ∉ name := fun hmem => absurd (hname.isNameChar ' ' hmem) (by decide)
  rcases List.suffix_or_suffix_of_suffix h (List.suffix_append s (' ' :: key)) with hle | hle
  · rcases List.suffix_cons_iff.mp hle with heq | hle
    · cases heq
    · exact hslash (hle.mem List.mem_cons_self)
  · rcases List.suffix_cons_iff.mp hle with heq | hle
    · cases heq
    · exact hblank (hle.mem List.mem_cons_self)

theorem not_endTag_suffix_startTag (hname : Html.IsName tag.name) :
    ¬ Html.endTag tag.name <:+ tag.startTag := by
  intro h
  rcases List.eq_nil_or_concat' tag.attributeSet.entries with hnil | ⟨entries, entry, hentries⟩
  · have hlength := h.length_le
    have hrender : tag.attributeSet.render = [] := by simp [AttributeSet.render, hnil]
    rw [startTag, Html.endTag, hrender, show "</".toList = ['<', '/'] from rfl] at hlength
    simp only [List.length_append, List.length_cons, List.length_nil] at hlength
    omega
  · have hmem : entry ∈ tag.attributeSet.entries := by simp [hentries]
    have hkey : Attribute.IsKey entry.key := isKey_of_mem_attributeSet hmem
    have hstart : tag.startTag = '<' :: (tag.name
        ++ entries.flatMap fun entry => ' ' :: entry.render) ++ ' ' :: entry.render ++ ['>'] := by
      simp [startTag, AttributeSet.render, hentries]
    cases hvalue : entry.value with
    | text text =>
        have hquote : tag.startTag = '<' :: (tag.name
            ++ entries.flatMap fun entry => ' ' :: entry.render)
              ++ ' ' :: (entry.key ++ '=' :: '"' :: text) ++ ['"'] ++ ['>'] := by
          simp [hstart, Entry.render, hvalue]
        rw [hquote] at h
        exact absurd (isNameChar_of_endTag_suffix hname h) (by decide)
    | flag =>
        have hfront : '<' :: '/' :: tag.name <:+ _ := (suffix_of_concat_suffix (hstart ▸ h)).2
        simp only [Entry.render, hvalue] at hfront
        exact not_suffix_key hname hkey _ ((List.suffix_cons _ _).trans hfront)

/-! ## The ways to write a tag line -/

/-- A line with only a start tag. -/
structure IsStart (tag : Tag) (element : Element) : Prop where
  markup : element.markup = tag.startTag
  closer : element.closer = none

/-- A line that ends with the end tag. -/
structure IsWhole (tag : Tag) (element : Element) : Prop where
  markup : ∃ inner, element.markup = tag.startTag ++ inner ++ Html.endTag tag.name
  closer : element.closer = none

/-- A line that owes the end tag, and maybe the end of a block before it. -/
structure IsOpen (tag : Tag) (element : Element) : Prop where
  markup : tag.startTag <+: element.markup
  not_ended : ¬ Html.endTag tag.name <:+ element.markup
  closer : element.closer = some (Html.endTag tag.name)
    ∨ element.closer = some (Erb.endMarker ++ Html.endTag tag.name)

theorem isStart_write (hvoid : Html.isVoid tag.name = true) (hasChildren : Bool) :
    tag.IsStart (tag.write hasChildren) := by
  unfold write
  simp only [hvoid, if_true]
  exact ⟨rfl, rfl⟩

/-- An element with an end tag either has it at the end of its line, or owes it. -/
theorem isWhole_or_isOpen_write (hname : Html.IsName tag.name)
    (hvoid : Html.isVoid tag.name = false) (hasChildren : Bool) :
    tag.IsWhole (tag.write hasChildren)
      ∨ hasChildren = true ∧ tag.IsOpen (tag.write hasChildren) := by
  unfold write
  simp only [hvoid, Bool.false_eq_true, if_false]
  split
  · rename_i escaping code _
    split
    · rename_i hblock
      refine .inr ⟨(Bool.and_eq_true_iff.mp hblock).1, List.prefix_append _ _, fun h => ?_, .inr rfl⟩
      -- The output ends with the delimiter of its tag.
      cases escaping <;>
      · simp only [Erb.output, Erb.unescapedOutput] at h
        rw [show " %>".toList = [' '] ++ ['%'] ++ ['>'] from rfl] at h
        simp only [← List.append_assoc] at h
        exact absurd (isNameChar_of_endTag_suffix hname h) (by decide)
    · exact .inl ⟨⟨_, rfl⟩, rfl⟩
  · split
    · rename_i hchildren
      exact .inr ⟨hchildren, List.prefix_rfl, not_endTag_suffix_startTag hname, .inl rfl⟩
    · exact .inl ⟨⟨_, rfl⟩, rfl⟩

end Tag

namespace Statement

variable {statement : Statement} {tag : Tag}

/-! ## Statements that are tags -/

/-- The tag that a statement is read as, if its kind is one of the kinds of tags. -/
def tag? (statement : Statement) : Option Tag :=
  match statement.kind with
  | .element => Tag.parse? statement.stripped
  | .classShorthand => Tag.parse? statement.stripped
  | .idShorthand => Tag.parse? statement.stripped
  | _ => none

theorem tag?_eq_parse? (h : statement.kind = .element ∨ statement.kind = .classShorthand
    ∨ statement.kind = .idShorthand) : statement.tag? = Tag.parse? statement.stripped := by
  rcases h with h | h | h <;> simp [tag?, h]

theorem of_tag? (h : statement.tag? = some tag) :
    Tag.parse? statement.stripped = some tag ∧ ∀ hasChildren, statement.render hasChildren
      = .line (tag.write hasChildren).markup (tag.write hasChildren).closer := by
  have hkind : ∀ {found}, statement.kind = found → (found = .element ∨ found = .classShorthand
      ∨ found = .idShorthand) → Tag.parse? statement.stripped = some tag →
      ∀ hasChildren, statement.render hasChildren
        = .line (tag.write hasChildren).markup (tag.write hasChildren).closer := by
    intro found hk hkinds hparse hasChildren
    rw [kind] at hk
    rcases hkinds with rfl | rfl | rfl <;>
      simp [render, Rendering.ofContent, hk, Rendering.ofTag, hparse]
  unfold tag? at h
  split at h
  · rename_i hk
    exact ⟨h, hkind hk (.inl rfl) h⟩
  · rename_i hk
    exact ⟨h, hkind hk (.inr (.inl rfl)) h⟩
  · rename_i hk
    exact ⟨h, hkind hk (.inr (.inr rfl)) h⟩
  · cases h

theorem endIf_eq_some {isOpen : Bool} {closer : Text} (h : Rendering.endIf isOpen = some closer) :
    closer = Erb.endMarker := by
  obtain ⟨_, h⟩ := Option.ite_none_right_eq_some.mp h
  exact (Option.some.inj h).symm

theorem closer_of_tag?_eq_none (h : statement.tag? = none) {hasChildren : Bool} {body closer : Text}
    (hline : statement.render hasChildren = .line body (some closer)) :
    closer = Erb.endMarker := by
  simp only [tag?, kind] at h
  simp only [render, Rendering.ofContent] at hline
  cases hk : Kind.of statement.stripped <;> simp only [hk] at h hline
  case element => simp [Rendering.ofTag, h] at hline
  case classShorthand => simp [Rendering.ofTag, h] at hline
  case idShorthand => simp [Rendering.ofTag, h] at hline
  case output =>
    unfold Rendering.ofOutput at hline
    split at hline <;> exact endIf_eq_some (Rendering.line.inj hline).2
  case code => exact endIf_eq_some (Rendering.line.inj hline).2
  case doctype => unfold Rendering.ofDoctype at hline; split at hline <;> cases hline
  case filter => unfold Rendering.ofFilter at hline; split at hline <;> cases hline
  all_goals cases hline

end Statement

end Haml
