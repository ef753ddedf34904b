import Haml.Rendering
import Haml.Proofs.Class
import Haml.Proofs.Element
import Haml.Proofs.Set
import Haml.Proofs.Value

/-!
# Bodies of lines

What a statement is rendered to is the body of one line: it holds no newline, and it does not start
with a blank. Texts are cut into parts, put together again, and given delimiters and characters of the
notation, none of which is a newline.
-/

namespace Haml

/-! ## Texts -/

namespace Text

theorem newline_notMem_trim {s : Text} (h : '\n' ∉ s) : '\n' ∉ trim s :=
  fun hmem => h ((trim_infix_self s).mem hmem)

end Text

namespace Erb

variable {code : Text}

theorem newline_notMem_output (h : '\n' ∉ code) : '\n' ∉ output code := by
  simp [output, h]

theorem newline_notMem_unescapedOutput (h : '\n' ∉ code) : '\n' ∉ unescapedOutput code := by
  simp [unescapedOutput, h]

theorem newline_notMem_statement (h : '\n' ∉ code) : '\n' ∉ statement code := by
  simp [statement, h]

theorem newline_notMem_comment (h : '\n' ∉ code) : '\n' ∉ comment code := by
  simp [comment, h]

end Erb

/-- The pieces of a text are parts of it, and writing them adds delimiters only. -/
theorem Interpolation.newline_notMem_expand {s : Text} (h : '\n' ∉ s) : '\n' ∉ expand s := by
  intro hmem
  obtain ⟨segment, hsegment, hmem⟩ := List.mem_flatMap.mp hmem
  refine h ?_
  rw [← flatMap_read_segments s]
  refine List.mem_flatMap.mpr ⟨segment, hsegment, ?_⟩
  cases segment with
  | char c => exact hmem
  | escaped code => simpa [Segment.write, Segment.read] using hmem
  | marker code => simpa [Segment.write, Segment.read, Erb.output] using hmem

theorem Rendering.newline_notMem_unescapeHyphens {s : Text} (h : '\n' ∉ s) :
    '\n' ∉ unescapeHyphens s := by
  fun_induction unescapeHyphens s with
  | case1 cs ih => simp_all
  | case2 c cs _ ih => simp_all
  | case3 => exact h

/-! ## Attributes -/

namespace Attribute

theorem newline_notMem_unescape {s : Text} (h : '\n' ∉ s) : '\n' ∉ unescape s := by
  fun_induction unescape s with
  | case1 c cs _ ih => simp_all
  | case2 c cs _ ih => simp_all
  | case3 c cs _ ih => simp_all
  | case4 => exact h

variable {base additional : Text}

theorem newline_notMem_mergeClass (hbase : '\n' ∉ base) (hadditional : '\n' ∉ additional) :
    '\n' ∉ mergeClass base additional := by
  refine Text.notMem_join (by decide) fun token htoken hmem => ?_
  rcases List.mem_append.mp (mem_distinct.mp htoken) with htoken | htoken
  · exact hbase ((infix_of_mem_classTokens htoken).1.mem hmem)
  · exact hadditional ((infix_of_mem_classTokens htoken).1.mem hmem)

theorem newline_notMem_mergeStyle (hbase : '\n' ∉ base) (hadditional : '\n' ∉ additional) :
    '\n' ∉ mergeStyle base additional := by
  have hterminated : ∀ {style : Text}, '\n' ∉ style → '\n' ∉ terminated style := by
    intro style hstyle
    unfold terminated
    have htrim := Text.newline_notMem_trim hstyle
    simp only
    split
    · exact htrim
    · simp [htrim]
  refine Text.newline_notMem_trim ?_
  simp [hterminated hbase, hterminated hadditional]

end Attribute

/-- A value without newline. -/
def EntryValue.IsLine (value : EntryValue) : Prop := ∀ text, value = .text text → '\n' ∉ text

namespace Entry

theorem newline_notMem_escapeQuotes {s : Text} (h : '\n' ∉ s) : '\n' ∉ escapeQuotes s := by
  intro hmem
  obtain ⟨c, hc, hmem⟩ := List.mem_flatMap.mp hmem
  split at hmem
  · exact absurd hmem (by decide)
  · obtain rfl := List.mem_singleton.mp hmem
    exact h hc

theorem isLine_escapeQuotes {text : Text} (h : '\n' ∉ text) :
    (EntryValue.text (escapeQuotes text)).IsLine := by
  rintro _ ⟨⟩
  exact newline_notMem_escapeQuotes h

end Entry

namespace AttributeSet

theorem isLine_combine (key : Text) {before value : EntryValue} (hbefore : before.IsLine)
    (hvalue : value.IsLine) : (combine key before value).IsLine := by
  intro text h
  unfold combine at h
  split at h
  · rename_i base additional
    have hbase : '\n' ∉ base := hbefore base rfl
    have hadditional : '\n' ∉ additional := hvalue additional rfl
    split at h
    · cases h
      exact Attribute.newline_notMem_mergeClass hbase hadditional
    · split at h
      · cases h
        exact Attribute.newline_notMem_mergeStyle hbase hadditional
      · cases h
        exact hadditional
  · exact hvalue text h

end AttributeSet

theorem EntryValue.IsFrom.isLine {s : Text} {value : EntryValue} (h : value.IsFrom s) (hs : '\n' ∉ s) :
    value.IsLine := by
  have hpart : ∀ {part : Text}, part <:+: s → '\n' ∉ part := fun hle hmem => hs (hle.mem hmem)
  cases h with
  | flag => rintro _ ⟨⟩
  | code hcode =>
      rintro _ ⟨⟩
      exact Erb.newline_notMem_output (hpart hcode)
  | plain htext => exact Entry.isLine_escapeQuotes (hpart htext)
  | decoded hbody => exact Entry.isLine_escapeQuotes (Attribute.newline_notMem_unescape (hpart hbody))
  | expanded hbody =>
      exact Entry.isLine_escapeQuotes
        (Interpolation.newline_notMem_expand (Attribute.newline_notMem_unescape (hpart hbody)))

/-! ## Tags -/

theorem Html.IsName.newline_notMem {name : Text} (h : Html.IsName name) : '\n' ∉ name :=
  fun hmem => absurd (h.isNameChar '\n' hmem) (by decide)

namespace Tag

variable {content : Text} {tag : Tag}

theorem isLine_of_mem_attributeSet (hparse : parse? content = some tag) (h : '\n' ∉ content) :
    ∀ entry ∈ tag.attributeSet.entries, entry.value.IsLine := by
  have hshorthand : ∀ entry ∈ tag.shorthandEntries, entry.value.IsLine := by
    intro entry hentry
    obtain ⟨key, names, rfl, hnames⟩ := of_mem_shorthandEntries hparse hentry
    exact Entry.isLine_escapeQuotes (Text.notMem_join (by decide) fun name hname hmem =>
      h ((hnames name hname).mem hmem))
  have hliteral : ∀ entry ∈ tag.literalEntries, entry.value.IsLine := fun entry hentry =>
    (isFrom_of_mem_literalEntries hparse hentry).isLine h
  have hempty : ∀ entry ∈ AttributeSet.empty.entries, entry.value.IsLine :=
    fun entry hentry => by cases hentry
  have hset := AttributeSet.forall_mem_merge (P := fun e => e.value.IsLine)
    (fun key _ _ => AttributeSet.isLine_combine key) hempty hshorthand
  exact AttributeSet.forall_mem_merge (P := fun e => e.value.IsLine)
    (fun key _ _ => AttributeSet.isLine_combine key) hset hliteral

theorem newline_notMem_startTag (hparse : parse? content = some tag) (h : '\n' ∉ content) :
    '\n' ∉ tag.startTag := by
  have hentry : ∀ entry ∈ tag.attributeSet.entries, '\n' ∉ entry.render := by
    intro entry hmem
    have hkey : '\n' ∉ entry.key :=
      fun hnewline => absurd (isKey_of_mem_attributeSet hmem '\n' hnewline) (by decide)
    have hline := isLine_of_mem_attributeSet hparse h entry hmem
    unfold Entry.render
    split
    · rename_i text htext
      simp [hkey, hline text htext]
    · exact hkey
  have hrender : '\n' ∉ tag.attributeSet.render := by
    intro hmem
    obtain ⟨entry, he, hmem⟩ := List.mem_flatMap.mp hmem
    rcases List.mem_cons.mp hmem with hblank | hmem
    · cases hblank
    · exact hentry entry he hmem
  simp [startTag, (isName_of_parse? hparse).newline_notMem, hrender]

theorem newline_notMem_write (hparse : parse? content = some tag) (h : '\n' ∉ content)
    (hasChildren : Bool) : '\n' ∉ (tag.write hasChildren).markup := by
  have hstart := newline_notMem_startTag hparse h
  have hfinish : '\n' ∉ Html.endTag tag.name := by
    simp [Html.endTag, (isName_of_parse? hparse).newline_notMem]
  unfold write
  simp only
  split
  · exact hstart
  · split
    · rename_i escaping code hcontent
      have hcode : '\n' ∉ code :=
        fun hmem => h ((content_infix_line hparse (.inr ⟨escaping, hcontent⟩)).mem hmem)
      have hvalue := Erb.newline_notMem_output hcode
      have hraw := Erb.newline_notMem_unescapedOutput hcode
      split <;> cases escaping <;> simp [hstart, hfinish, hvalue, hraw]
    · rename_i text hcontent
      have htext : '\n' ∉ Interpolation.expand text := Interpolation.newline_notMem_expand
        fun hmem => h ((content_infix_line hparse (.inl hcontent)).mem hmem)
      split <;> simp [hstart, hfinish, htext]

end Tag

/-! ## Statements -/

theorem Kind.eq_nil_of_blank {content : Text} (h : Kind.of content = .blank) : content = [] := by
  unfold Kind.of at h
  split at h
  · rfl
  all_goals cases h

namespace Rendering

variable {content body : Text} {hasChildren : Bool} {closer : Option Text}

theorem newline_notMem_ofOutput {code : Text} (hcode : '\n' ∉ code)
    (hline : ofOutput code = .line body closer) : '\n' ∉ body := by
  unfold ofOutput at hline
  split at hline
  · rename_i before remark hcomment
    cases hline
    have hbefore : '\n' ∉ Text.trimEnd before := fun hmem => hcode
      ((Code.prefix_of_comment? hcomment).mem ((Text.trimEnd_prefix_self before).mem hmem))
    have hremark : '\n' ∉ Text.trim remark := Text.newline_notMem_trim
      fun hmem => hcode ((Code.suffix_of_comment? hcomment).mem hmem)
    simp [Erb.newline_notMem_output hbefore, Erb.newline_notMem_comment hremark]
  · cases hline
    exact Erb.newline_notMem_output hcode

theorem newline_notMem_ofTag (h : '\n' ∉ content)
    (hline : ofTag content hasChildren = .line body closer) : '\n' ∉ body := by
  unfold ofTag at hline
  split at hline
  · rename_i tag hparse
    cases hline
    exact Tag.newline_notMem_write hparse h hasChildren
  · cases hline

theorem newline_notMem_body (h : '\n' ∉ content)
    (hline : ofContent content hasChildren = .line body closer) : '\n' ∉ body := by
  have hrest : ∀ n, '\n' ∉ Text.trim (content.drop n) := fun n =>
    Text.newline_notMem_trim fun hmem => h (List.mem_of_mem_drop hmem)
  unfold ofContent at hline
  cases hkind : Kind.of content <;> simp only [hkind] at hline
  case blank => cases hline; simp
  case doctype =>
    unfold ofDoctype at hline
    split at hline
    · cases hline; decide
    · cases hline
  case comment => cases hline; exact Erb.newline_notMem_comment (hrest 2)
  case element => exact newline_notMem_ofTag h hline
  case classShorthand => exact newline_notMem_ofTag h hline
  case idShorthand => exact newline_notMem_ofTag h hline
  case output => exact newline_notMem_ofOutput (hrest 1) hline
  case code => cases hline; exact Erb.newline_notMem_statement (hrest 1)
  case escapedOutput => cases hline; exact Erb.newline_notMem_output (hrest 2)
  case unescapedOutput => cases hline; exact Erb.newline_notMem_unescapedOutput (hrest 2)
  case htmlComment => cases hline; simpa using hrest 1
  case filter => unfold ofFilter at hline; split at hline <;> cases hline
  case text =>
    cases hline
    exact newline_notMem_unescapeHyphens (Interpolation.newline_notMem_expand h)

theorem head_expand (c : Char) (cs : Text) :
    ∃ d ∈ (Interpolation.expand (c :: cs)).head?, d = c ∨ d = '<' ∨ d = '#' := by
  rw [Interpolation.expand, Interpolation.segments]
  split
  · rename_i segment rest hopening
    cases segment with
    | char d =>
        -- A piece that opens with a marker is not a single character.
        unfold Interpolation.opening? at hopening
        split at hopening <;>
        · obtain ⟨_, _, heq⟩ := Option.map_eq_some_iff.mp hopening
          cases heq
    | escaped code => exact ⟨'#', rfl, .inr (.inr rfl)⟩
    | marker code => exact ⟨'<', rfl, .inr (.inl rfl)⟩
  · exact ⟨c, rfl, .inl rfl⟩

theorem head_unescapeHyphens {c : Char} {s : Text} (h : s.head? = some c) :
    ∃ d ∈ (unescapeHyphens s).head?, d = c ∨ d = '-' := by
  unfold unescapeHyphens
  split
  · exact ⟨'-', rfl, .inr rfl⟩
  · rename_i d ds _
    obtain rfl : d = c := Option.some.inj h
    exact ⟨d, rfl, .inl rfl⟩
  · cases h

/-- What content becomes starts with no blank. -/
theorem head_body {c : Char} (hc : content.head? = some c) (hblank : Text.isBlank c = false)
    (hline : ofContent content hasChildren = .line body closer) :
    ∃ d ∈ body.head?, Text.isBlank d = false := by
  obtain ⟨cs, rfl⟩ := List.head?_eq_some_iff.mp hc
  have hangle : ∀ rest : Text, ∃ d ∈ ('<' :: rest).head?, Text.isBlank d = false :=
    fun rest => ⟨'<', rfl, by decide⟩
  have htag : ofTag (c :: cs) hasChildren = .line body closer →
      ∃ d ∈ body.head?, Text.isBlank d = false := by
    intro hline
    unfold ofTag at hline
    split at hline
    · rename_i tag _
      cases hline
      obtain ⟨rest, hrest⟩ := tag.startTag_prefix_write hasChildren
      rw [← hrest]
      exact hangle _
    · cases hline
  unfold ofContent at hline
  cases hkind : Kind.of (c :: cs) <;> simp only [hkind] at hline
  case blank => cases Kind.eq_nil_of_blank hkind
  case doctype =>
    unfold ofDoctype at hline
    split at hline
    · cases hline; exact hangle _
    · cases hline
  case element => exact htag hline
  case classShorthand => exact htag hline
  case idShorthand => exact htag hline
  case output => unfold ofOutput at hline; split at hline <;> cases hline <;> exact hangle _
  case filter => unfold ofFilter at hline; split at hline <;> cases hline
  case text =>
    cases hline
    obtain ⟨d, hd, hcases⟩ := head_expand c cs
    obtain ⟨e, he, hcases'⟩ := head_unescapeHyphens hd
    refine ⟨e, he, ?_⟩
    rcases hcases' with rfl | rfl
    · rcases hcases with rfl | rfl | rfl
      · exact hblank
      · decide
      · decide
    · decide
  all_goals cases hline; exact hangle _

end Rendering

end Haml
