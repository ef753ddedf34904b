import Haml.Proofs.Balance
import Haml.Proofs.Enclosed
import Haml.Proofs.Standing

/-!
# Text below attribute blocks

The lines of text right below an attribute block become the content of its element, and the element
writes its content only if it has an end tag and no lines are nested under it. Main statement: what is
written for a block, which of the lines below it are content, and what becomes of the text in all
others. If the quotes or braces of the attributes are not closed, the text is looked for in another place:
where the closing brace is found decides what is attribute text and what is content.
-/

namespace Haml

/-! ## What is taken as content -/

namespace Statement

variable {line : Line} {lines following : List Line} {element : Text} {fragments : List Text}
  {taken : Nat}

theorem blockContent_fst_eq (indent : Nat) (lines : List Line) :
    (blockContent indent lines).1
      = ((lines.take (blockContent indent lines).2).filter (!·.isBlank)).map Line.stripped := by
  unfold blockContent
  split
  · exact absorb_fst_eq lines
  · rfl

theorem not_isBlank_of_text (h : Kind.of line.stripped = .text) : line.isBlank = false := by
  refine List.isEmpty_eq_false_iff.mpr fun hnil => ?_
  rw [hnil] at h
  cases h

theorem not_isBlank_of_block (h : blockOpener? line.stripped = some element) :
    line.isBlank = false := by
  refine List.isEmpty_eq_false_iff.mpr fun hnil => ?_
  rw [hnil] at h
  cases h

theorem text_of_mem_blockContent {indent : Nat} {content : Text}
    (h : content ∈ (blockContent indent lines).1) :
    Kind.of content = .text ∧ ∃ line : Line, line.isBlank = false ∧ content = line.stripped := by
  obtain ⟨line, _, _, hkind, rfl⟩ := of_mem_blockContent h
  exact ⟨hkind, line, not_isBlank_of_text hkind, rfl⟩

/-- The content of a block is read as its lines of text, with blanks in between. -/
theorem ofText_blockContent (indent : Nat) (lines : List Line) :
    Content.ofText (Text.trim ((blockContent indent lines).1.flatMap (' ' :: ·)))
      = .text (Text.join [' '] (blockContent indent lines).1) := by
  rw [Text.trim_contents fun content hmem => (text_of_mem_blockContent hmem).2,
    Content.ofText_join fun content hmem => (text_of_mem_blockContent hmem).1]

/-- The first statement with content starts at the first line with content. -/
theorem indentOfFirst_ofLines (lines : List Line) :
    indentOfFirst (ofLines lines) = ((lines.find? (!·.isBlank)).map Line.indent).getD 0 := by
  induction lines with
  | nil => rw [ofLines]; rfl
  | cons line rest ih =>
      cases hb : line.isBlank with
      | true =>
          have hfirst : (first line rest).isBlank = true := by
            rw [first_of_isBlank rest hb]
            exact hb
          rw [ofLines, indentOfFirst, List.find?_cons_of_neg (by simp [hfirst]), first_of_isBlank rest hb,
            List.find?_cons_of_neg (by simp [hb]), ← ih]
          rfl
      | false =>
          rw [ofLines, indentOfFirst, List.find?_cons_of_pos (by simp [isBlank_first rest hb]),
            List.find?_cons_of_pos (by simp [hb])]
          exact indent_first rest hb

/-- If what comes next is not deeper, only blank lines are nested. -/
theorem isBlank_of_mem_takeWhile {indent : Nat} (h : ¬ indent < indentOfFirst (ofLines lines)) :
    ∀ line ∈ lines.takeWhile (Line.isUnder indent), line.isBlank = true := by
  rw [indentOfFirst_ofLines] at h
  induction lines with
  | nil => exact fun _ hmem => by cases hmem
  | cons line rest ih =>
      cases hb : line.isBlank with
      | true =>
          rw [List.find?_cons_of_neg (by simp [hb])] at h
          rw [List.takeWhile_cons_of_pos (by simp [Line.isUnder, hb])]
          exact List.forall_mem_cons.mpr ⟨hb, ih h⟩
      | false =>
          rw [List.find?_cons_of_pos (by simp [hb])] at h
          rw [List.takeWhile_cons_of_neg (by simpa [Line.isUnder, hb] using h)]
          exact fun _ hmem => by cases hmem

section

variable (hopener : blockOpener? line.stripped = some element)
  (hattributes : blockAttributes? line.indent following = some (fragments, taken))

include hopener hattributes

theorem first_of_block : block? line following = some (first line following) := by
  unfold first
  split
  · rename_i statement hblock
    exact hblock
  · rename_i hblock
    simp [block?, hopener, hattributes] at hblock

theorem linesAfter_of_block :
    linesAfter line following
      = (following.drop taken).drop (blockContent line.indent (following.drop taken)).2 := by
  obtain ⟨_, _, _, hopener', hattributes', _, hspan⟩ := of_block? (first_of_block hopener hattributes)
  cases hopener.symm.trans hopener'
  cases hattributes.symm.trans hattributes'
  rw [linesAfter, hspan, List.drop_drop]
  congr 1
  omega

/-- A block with a bare tag is read as this tag, with attributes and content from all that is folded. -/
theorem exists_tag?_of_block (hbare : Tag.IsBare element) :
    let folded := ' ' :: (Text.join ", ".toList fragments ++ [' '])
      ++ '}' :: (blockContent line.indent (following.drop taken)).1.flatMap (' ' :: ·)
    ∃ tag, (first line following).tag? = some tag
      ∧ tag.attributes = (Tag.splitAttributes ('{' :: folded)).1
      ∧ tag.content = Content.ofText (Text.trim (Tag.splitAttributes ('{' :: folded)).2) := by
  intro folded
  have hstripped := stripped_of_block? hopener hattributes (first_of_block hopener hattributes)
  have hshape : (first line following).stripped = element ++ '{' :: folded := by
    rw [hstripped]
    simp [folded]
  obtain ⟨tag, hparse, htext, hcontent⟩ := hbare.exists_parse? folded
  have hkind := hbare.kind_of ('{' :: folded)
  rw [← hshape] at hkind
  exact ⟨tag, by rw [tag?_eq_parse? hkind, hshape, hparse], htext, hcontent⟩

/-- A block with a bare tag and enclosed attributes has the text as content. -/
theorem tag?_of_block (hbare : Tag.IsBare element)
    (henclosed : Code.IsEnclosed (' ' :: (Text.join ", ".toList fragments ++ [' ']))) :
    ∃ tag, (first line following).tag? = some tag
      ∧ tag.attributes = some (' ' :: (Text.join ", ".toList fragments ++ [' ']))
      ∧ tag.content = .text (Text.join [' ']
          (blockContent line.indent (following.drop taken)).1) := by
  obtain ⟨tag, htag, htext, hcontent⟩ := exists_tag?_of_block hopener hattributes hbare
  rw [Tag.splitAttributes_of_isEnclosed henclosed] at htext hcontent
  exact ⟨tag, htag, htext, hcontent.trans (ofText_blockContent _ _)⟩

end

end Statement

/-! ## What is written -/

theorem Tag.markup_write_text {tag : Tag} {text : Text} (h : tag.content = .text text)
    (hasChildren : Bool) :
    (tag.write hasChildren).markup
      = if Html.isVoid tag.name || hasChildren then tag.startTag
        else tag.startTag ++ Interpolation.expand text ++ Html.endTag tag.name := by
  unfold write
  rw [h]
  cases Html.isVoid tag.name <;> cases hasChildren <;> rfl

theorem Turn.tag?_of_isTaken {turn : Turn} {tag : Tag} (htaken : turn.isTaken = false)
    (htag : turn.statement.tag? = some tag) : turn.tag? = some tag := by
  have hblank : turn.statement.isBlank = false := by
    refine List.isEmpty_eq_false_iff.mpr fun hnil => ?_
    simp [Statement.tag?, Statement.kind, hnil, Kind.of] at htag
  have hrendered : turn.isRendered = true := by simp [isRendered, htaken, hblank]
  rw [tag?, if_pos hrendered, htag]

/-- Text starts neither an attribute block nor an output. -/
theorem Statement.first_of_text {line : Line} (h : Kind.of line.stripped = .text)
    (following : List Line) : first line following = single line := by
  have hopener : startsElement line.stripped = false := by
    unfold startsElement
    split
    · rename_i heq
      rw [heq] at h
      cases h
    · rename_i heq
      rw [heq] at h
      cases h
    · rename_i c cs heq
      rw [heq] at h
      -- Only an interpolation starts text with a hash.
      have hc : c = '{' := by
        by_contra hc
        simp [Kind.of, hc] at h
      rw [hc]
      rfl
    · rfl
  have hcontinued : isContinued line.stripped = false := by
    cases hstripped : line.stripped with
    | nil => rfl
    | cons c cs =>
        have hc : c ≠ '=' := by
          rintro rfl
          rw [hstripped] at h
          cases h
        simp [isContinued, hc]
  exact first_eq_single following (by simp [blockOpener?, hopener]) hcontinued

/-- A line of text outside of filters is written by itself. -/
theorem Converter.own_of_text {converter : Converter} {line : Line} {following : List Line}
    (hkind : Kind.of line.stripped = .text)
    (htaken : (converter.turnAt line following).isTaken = false) :
    (converter.turnAt line following).own = [.line (Text.indentation line.text)
      (Rendering.unescapeHyphens (Interpolation.expand line.stripped))] := by
  have hstatement : (converter.turnAt line following).statement = .single line :=
    Statement.first_of_text hkind following
  have hblank : (Statement.single line).isBlank = false := Statement.not_isBlank_of_text hkind
  have hrendering : (converter.turnAt line following).rendering
      = Rendering.ofRunningText line.stripped := by
    rw [Turn.rendering, hstatement]
    simp only [Statement.render, Statement.stripped, Statement.single, Rendering.ofContent]
    rw [Line.stripped] at hkind
    rw [hkind]
    rfl
  rw [Turn.own, htaken, hstatement, hblank, hrendering]
  rfl

/-- Only the start of an attribute block and a continued output take more than their own line. -/
theorem Statement.of_one_lt_span_first {line : Line} {following : List Line}
    (h : 1 < (first line following).span) :
    (block? line following).isSome = true ∨ isContinued line.stripped = true := by
  unfold first at h
  split at h
  · rename_i hblock
    exact .inl (by rw [hblock]; rfl)
  · split at h
    · rename_i hcontinued
      exact .inr hcontinued
    · exact absurd h (Nat.lt_irrefl 1)

/-! ## Where a line is taken -/

namespace Standing

variable {document : Text} {written : List Chunk} {converter : Converter} {line : Line}
  {lines following : List Line}

theorem own_subset (h : Standing document written converter (line :: following)) :
    (converter.turnAt line following).own
      ⊆ (Converter.start.run (Statement.ofDocument document)).1 := by
  rw [h.run_eq, Converter.run_ofLines_cons, Converter.stepAt_eq]
  intro chunk hchunk
  simp [hchunk]

/-- Each of the lines that are left is taken by the statement that starts at some later standing. -/
theorem exists_taking (h : Standing document written converter lines) {above below : List Line}
    (heq : lines = above ++ line :: below) :
    ∃ written' converter' start later inside, Standing document written' converter' (start :: later)
      ∧ start :: later = inside ++ line :: below ∧ inside <:+ above
      ∧ inside.length < (Statement.first start later).span := by
  obtain ⟨n, hn⟩ : ∃ n, above.length = n := ⟨_, rfl⟩
  induction n using Nat.strong_induction_on generalizing written converter lines above with
  | _ n ih =>
      cases lines with
      | nil => simp at heq
      | cons start following =>
          rcases Nat.lt_or_ge above.length (Statement.first start following).span with hlt | hge
          · exact ⟨written, converter, start, following, above, h, heq, List.suffix_rfl, hlt⟩
          · have hspan := Statement.one_le_span_first start following
            have hafter : Statement.linesAfter start following
                = above.drop (Statement.first start following).span ++ line :: below := by
              rw [← List.drop_append_of_le_length hge, ← heq, Statement.linesAfter]
              obtain ⟨m, hm⟩ : ∃ m, (Statement.first start following).span = m + 1 :=
                ⟨_, (Nat.sub_add_cancel hspan).symm⟩
              rw [hm]
              rfl
            have hshorter : (above.drop (Statement.first start following).span).length < n := by
              rw [List.length_drop]
              omega
            obtain ⟨written', converter', start', later, inside, hlater, hlines, hinside, hlt⟩ :=
              ih _ hshorter h.next hafter rfl
            exact ⟨written', converter', start', later, inside, hlater, hlines,
              hinside.trans (List.drop_suffix _ _), hlt⟩

/--
Each line of text that is left starts a statement, which is written unless a filter takes it, or is
folded into an attribute block or an output above it.
-/
theorem exists_taking_text (h : Standing document written converter lines) {above below : List Line}
    (heq : lines = above ++ line :: below) (hkind : Kind.of line.stripped = .text) :
    ∃ written' converter' start later inside, Standing document written' converter' (start :: later)
      ∧ start :: later = inside ++ line :: below ∧ inside <:+ above
      ∧ (inside = [] → (converter'.turnAt start later).isTaken = false →
        Chunk.line (Text.indentation line.text)
            (Rendering.unescapeHyphens (Interpolation.expand line.stripped))
          ∈ (Converter.start.run (Statement.ofDocument document)).1)
      ∧ (inside ≠ [] → (Statement.block? start later).isSome = true
        ∨ Statement.isContinued start.stripped = true) := by
  obtain ⟨written', converter', start, later, inside, hstanding, hlines, hinside, hlt⟩ :=
    h.exists_taking heq
  refine ⟨written', converter', start, later, inside, hstanding, hlines, hinside, ?_, fun hne => ?_⟩
  · rintro rfl hnot
    cases hlines
    exact hstanding.own_subset (Converter.own_of_text hkind hnot ▸ List.mem_singleton_self _)
  · have hpos := List.length_pos_of_ne_nil hne
    exact Statement.of_one_lt_span_first (by omega)

end Standing

/-! ## Text below a block -/

namespace Statement

variable {line : Line} {below : List Line}

/-- If what comes after the content is not deeper, all nested lines that are not blank are content. -/
theorem mem_blockContent_of_not_hasChildren
    (h : ¬ line.indent < indentOfFirst (ofLines (below.drop (blockContent line.indent below).2))) :
    ∀ next ∈ below.takeWhile (Line.isUnder line.indent), next.isBlank = false →
      next.stripped ∈ (blockContent line.indent below).1 := by
  intro next hnext hb
  have hsplit : next ∈ below.take (blockContent line.indent below).2
      ∨ next ∈ (below.drop (blockContent line.indent below).2).takeWhile
        (Line.isUnder line.indent) := by
    rw [← List.take_append_drop (blockContent line.indent below).2 below, List.takeWhile_append]
      at hnext
    split at hnext
    · exact List.mem_append.mp hnext
    · exact .inl ((List.takeWhile_prefix _).mem hnext)
  rcases hsplit with htaken | hlater
  · rw [blockContent_fst_eq]
    exact List.mem_map_of_mem (List.mem_filter.mpr ⟨htaken, by simp [hb]⟩)
  · rw [isBlank_of_mem_takeWhile h next hlater] at hb
    cases hb

end Statement

section

variable {document : Text} {written : List Chunk} {converter : Converter} {line : Line}
  {following : List Line} {element : Text} {fragments : List Text} {taken : Nat}

/-- The line of a block without other lines nested under it holds all text that is. -/
theorem Standing.exists_line_of_block (h : Standing document written converter (line :: following))
    (hopener : Statement.blockOpener? line.stripped = some element)
    (hattributes : Statement.blockAttributes? line.indent following = some (fragments, taken))
    (hchildren : (converter.turnAt line following).hasChildren = false) {before after : Text}
    (hown : (converter.turnAt line following).own = [.line (Text.indentation line.text)
      (before ++ Interpolation.expand (Text.join [' ']
        (Statement.blockContent line.indent (following.drop taken)).1) ++ after)])
    (hclosed : ∀ text ∈ (Statement.blockContent line.indent (following.drop taken)).1,
      Interpolation.IsClosed text) {next : Line}
    (hnext : next ∈ (following.drop taken).takeWhile (Line.isUnder line.indent))
    (hkind : Kind.of next.stripped = .text) :
    ∃ body, Chunk.line (Text.indentation line.text) body
        ∈ (Converter.start.run (Statement.ofDocument document)).1
      ∧ Interpolation.expand next.stripped <:+: body := by
  have hflat : ¬ line.indent < Statement.indentOfFirst (Statement.ofLines
      ((following.drop taken).drop (Statement.blockContent line.indent (following.drop taken)).2)) := by
    rw [← Statement.linesAfter_of_block hopener hattributes,
      ← Statement.indent_first following (Statement.not_isBlank_of_block hopener)]
    exact of_decide_eq_false hchildren
  have hmem := Statement.mem_blockContent_of_not_hasChildren hflat next hnext
    (Statement.not_isBlank_of_text hkind)
  have hpart : Interpolation.expand next.stripped
      ∈ (Statement.blockContent line.indent (following.drop taken)).1.map Interpolation.expand :=
    List.mem_map_of_mem hmem
  refine ⟨_, h.own_subset (hown ▸ List.mem_singleton_self _), ?_⟩
  rw [Interpolation.expand_join hclosed]
  exact (Text.infix_join hpart [' ']).trans ⟨before, after, rfl⟩

/--
A block outside of filters, with a bare tag and any attributes. The brace that closes the attributes is looked
for in all that is folded, the text of the lines included: what stands before it is attribute text, and what
stands behind it is content. Without such a brace the element has no attributes, and all of it is content from
the brace on that opens the block.
-/
theorem block_text_open (htaken : (converter.turnAt line following).isTaken = false)
    (hopener : Statement.blockOpener? line.stripped = some element) (hbare : Tag.IsBare element)
    (hattributes : Statement.blockAttributes? line.indent following = some (fragments, taken)) :
    let turn := converter.turnAt line following
    let folded := ' ' :: (Text.join ", ".toList fragments ++ [' '])
      ++ '}' :: (Statement.blockContent line.indent (following.drop taken)).1.flatMap (' ' :: ·)
    ∃ tag, turn.tag? = some tag
      ∧ (∀ group, Code.braced? ('{' :: folded) = some group →
        folded = group.content ++ '}' :: group.remaining ∧ tag.attributes = some group.content
          ∧ tag.content = Content.ofText (Text.trim group.remaining))
      ∧ (Code.braced? ('{' :: folded) = none →
        tag.attributes = none
          ∧ turn.own = [.line (Text.indentation line.text)
            (if Html.isVoid tag.name || turn.hasChildren then tag.startTag
              else tag.startTag ++ Interpolation.expand ('{' :: folded) ++ Html.endTag tag.name)]) := by
  intro turn folded
  obtain ⟨tag, hread, htext, hcontent⟩ := Statement.exists_tag?_of_block hopener hattributes hbare
  have htag : turn.tag? = some tag := Turn.tag?_of_isTaken htaken hread
  refine ⟨tag, htag, fun group hgroup => ?_, fun hnone => ?_⟩
  · have happend : '{' :: folded = '{' :: (group.content ++ '}' :: group.remaining) := Code.of_braced? hgroup
    rw [Tag.splitAttributes, hgroup] at htext hcontent
    exact ⟨(List.cons.inj happend).2, htext, hcontent⟩
  · rw [Tag.splitAttributes, hnone] at htext hcontent
    have hlast := Text.trimEnd_eq_self
      (Statement.isBlank_getLast?_blockContent line.indent (following.drop taken))
    have htrim : Text.trim ('{' :: folded) = '{' :: folded := by
      have hopen : Text.trim ('{' :: folded) = '{' :: Text.trimEnd folded :=
        Text.trim_append_cons (List.forall_mem_nil _) (by decide) folded
      have hbrace : Text.isBlank '}' = false := by decide
      have hclose := Text.trimEnd_append_cons hbrace (' ' :: (Text.join ", ".toList fragments ++ [' ']))
        ((Statement.blockContent line.indent (following.drop taken)).1.flatMap (' ' :: ·))
      rw [hlast] at hclose
      exact hopen.trans (congrArg ('{' :: ·) hclose)
    rw [htrim] at hcontent
    refine ⟨htext, ?_⟩
    rw [Turn.own_of_tag? htag, Tag.markup_write_text hcontent]
    exact congrArg (fun indentation => [Chunk.line indentation _])
      (Statement.indentation_first following (Statement.not_isBlank_of_block hopener))

/--
A block outside of filters, with a bare tag and enclosed attributes. Its line has the text of the lines
taken as content if the element has an end tag and nothing else is nested under it, and then these are
all lines of text that are nested under it; otherwise their text is not written. Every line of text
further below starts a statement and is written by itself, or a filter copies it, or it is folded into
the statement of a line that is also below.
-/
theorem block_text (h : Standing document written converter (line :: following))
    (htaken : (converter.turnAt line following).isTaken = false)
    (hopener : Statement.blockOpener? line.stripped = some element) (hbare : Tag.IsBare element)
    (hattributes : Statement.blockAttributes? line.indent following = some (fragments, taken))
    (henclosed : Code.IsEnclosed (' ' :: (Text.join ", ".toList fragments ++ [' ']))) :
    let turn := converter.turnAt line following
    let below := following.drop taken
    let content := Statement.blockContent line.indent below
    let chunks := (Converter.start.run (Statement.ofDocument document)).1
    ∃ tag, turn.tag? = some tag
      ∧ tag.attributes = some (' ' :: (Text.join ", ".toList fragments ++ [' ']))
      ∧ turn.own = [.line (Text.indentation line.text)
          (if Html.isVoid tag.name || turn.hasChildren then tag.startTag
            else tag.startTag ++ Interpolation.expand (Text.join [' '] content.1)
              ++ Html.endTag tag.name)]
      ∧ content.1 = ((below.take content.2).filter (!·.isBlank)).map Line.stripped
      ∧ (Html.isVoid tag.name = false → turn.hasChildren = false →
          (∀ text ∈ content.1, Interpolation.IsClosed text) →
          ∀ next ∈ below.takeWhile (Line.isUnder line.indent), Kind.of next.stripped = .text →
            ∃ body, Chunk.line (Text.indentation line.text) body ∈ chunks
              ∧ Interpolation.expand next.stripped <:+: body)
      ∧ ∀ above next rest, below.drop content.2 = above ++ next :: rest →
          Kind.of next.stripped = .text →
          ∃ written' converter' start later inside,
            Standing document written' converter' (start :: later)
              ∧ start :: later = inside ++ next :: rest ∧ inside <:+ above
              ∧ (inside = [] → (converter'.turnAt start later).isTaken = false →
                Chunk.line (Text.indentation next.text)
                  (Rendering.unescapeHyphens (Interpolation.expand next.stripped)) ∈ chunks)
              ∧ (inside ≠ [] → (Statement.block? start later).isSome = true
                ∨ Statement.isContinued start.stripped = true) := by
  intro turn below content chunks
  obtain ⟨tag, hread, htext, hcontent⟩ := Statement.tag?_of_block hopener hattributes hbare henclosed
  have htag : turn.tag? = some tag := Turn.tag?_of_isTaken htaken hread
  have hown : turn.own = [.line (Text.indentation line.text)
      (if Html.isVoid tag.name || turn.hasChildren then tag.startTag
        else tag.startTag ++ Interpolation.expand (Text.join [' '] content.1)
          ++ Html.endTag tag.name)] := by
    rw [Turn.own_of_tag? htag, Tag.markup_write_text hcontent]
    exact congrArg (fun indentation => [Chunk.line indentation _])
      (Statement.indentation_first following (Statement.not_isBlank_of_block hopener))
  refine ⟨tag, htag, htext, hown, Statement.blockContent_fst_eq _ _, ?_, ?_⟩
  · intro hvoid hchildren hclosed next hnext hkind
    rw [hvoid, hchildren] at hown
    exact h.exists_line_of_block hopener hattributes hchildren hown hclosed hnext hkind
  · intro above next rest heq hkind
    have hafter := Statement.linesAfter_of_block hopener hattributes
    exact h.next.exists_taking_text (hafter.trans heq) hkind

end

/-- Two lines of text below a list, one of them with an interpolation. -/
theorem block_text_list :
    ∃ body, Chunk.line [] body ∈ (Converter.start.run (Statement.ofDocument
        "%ul\x7b\n  role: 'list'\n\x7d\n  Hello #\x7bname\x7d\n  and all\n".toList)).1
      ∧ "Hello <%= name %>".toList <:+: body := by
  have hstanding : Standing
      "%ul\x7b\n  role: 'list'\n\x7d\n  Hello #\x7bname\x7d\n  and all\n".toList [] .start
      (⟨"%ul\x7b".toList, true⟩
        :: Line.ofDocument "  role: 'list'\n\x7d\n  Hello #\x7bname\x7d\n  and all\n".toList) := .start
  have hopener : Statement.blockOpener? "%ul\x7b".toList = some "%ul".toList := by decide +kernel
  have hname : Html.IsName "ul".toList := ⟨by decide, List.all_eq_true.mp rfl⟩
  have hchain : Shorthand.IsChain [] := ⟨by simp, by simp, by decide⟩
  have hattributes : Statement.blockAttributes? 0
      (Line.ofDocument "  role: 'list'\n\x7d\n  Hello #\x7bname\x7d\n  and all\n".toList)
        = some (["role: 'list'".toList], 2) := by decide +kernel
  obtain ⟨tag, htag, _, _, _, hkept, _⟩ := block_text hstanding (by decide +kernel) hopener
    (.named hname hchain) hattributes (by decide +kernel)
  have hvoid : (Statement.tag? ⟨"%ul\x7b role: 'list' \x7d Hello #\x7bname\x7d and all".toList, 5, true⟩).map
      (Html.isVoid ·.name) = some false := by decide +kernel
  have htag' : Statement.tag? ⟨"%ul\x7b role: 'list' \x7d Hello #\x7bname\x7d and all".toList, 5, true⟩
      = some tag := htag
  rw [htag'] at hvoid
  have hexpand : Interpolation.expand "Hello #\x7bname\x7d".toList = "Hello <%= name %>".toList := by
    decide +kernel
  obtain ⟨body, hbody, hpart⟩ := hkept (Option.some.inj hvoid) (by decide +kernel) (by decide +kernel)
    ⟨"  Hello #\x7bname\x7d".toList, true⟩ (by decide +kernel) (by decide +kernel)
  exact ⟨body, hbody, hexpand ▸ hpart⟩

/--
Text is lost below a list whose attributes stand on lines of their own, if an item comes after it; it is
kept if the attributes stand on the line of the list.
-/
theorem block_text_lost :
    (convert "%ul\x7b\n  role: 'list'\n\x7d\n  Hello\n  %li One\n".toList).page
        = "<ul role=\"list\">\n  <li>One</li>\n</ul>\n".toList
      ∧ (convert "%ul\x7b role: 'list' \x7d\n  Hello\n  %li One\n".toList).page
        = "<ul role=\"list\">\n  Hello\n  <li>One</li>\n</ul>\n".toList := by
  decide +kernel

end Haml
