import Haml.Proofs.CodeBlock
import Haml.Proofs.Continued

/-!
# Blocks of continued outputs

An output that goes on over lines takes all deeper ones that follow. If the last of its arguments opens a
block, then the lines nested in the block are taken with the arguments. Main statement: the code that is
written for such an output, that it opens no scope, and that the block is kept exactly if nothing but blank
lines is nested in it.
-/

namespace Haml

namespace Statement

variable {line opening : Line} {arguments below following : List Line}

/-- The code of an output that goes on over some lines: all that stands there, blank lines aside. -/
def codeOver (line : Line) (lines : List Line) : Text :=
  Text.join [' '] (Text.trim (line.stripped.drop 1) :: (lines.filter (!·.isBlank)).map Line.stripped)

/--
An output whose arguments go on over deeper lines, all but the last of which end with a comma. The last one
opens a block with `do`.
-/
structure IsContinuedBlock (line : Line) (arguments : List Line) (opening : Line) : Prop where
  continued : isContinued line.stripped = true
  arguments : ∀ next ∈ arguments, next.isBlank = false →
    line.indent < next.indent ∧ next.stripped.getLast? = some ','
  deeper : line.indent < opening.indent
  opens : Code.hasDoBlock opening.stripped = true

/-! ## The lines of an output -/

theorem linesAfter_of_continued (h : isContinued line.stripped = true) (following : List Line) :
    linesAfter line following
      = following.drop (absorb (fun next => line.indent < next.indent) following).2 := by
  rw [linesAfter, first_of_continued h, span_continued, Nat.add_sub_cancel_left]

/-- An output that goes on takes all lines that are deeper, so that what comes next is not. -/
theorem not_lt_indentOfFirst_of_continued (h : isContinued line.stripped = true) (following : List Line) :
    ¬ line.indent < indentOfFirst (ofLines (linesAfter line following)) := by
  rw [indentOfFirst_ofLines, linesAfter_of_continued h]
  have hends := accept_eq_false_of_find? (fun next => line.indent < next.indent) following
  cases hfind : (following.drop (absorb (fun next => line.indent < next.indent) following).2).find?
      (!·.isBlank) with
  | none => exact Nat.not_lt_zero _
  | some next => exact of_decide_eq_false (hends next hfind)

/-- No lines are nested under an output that goes on. -/
theorem hasChildren_of_continued (h : isContinued line.stripped = true) (converter : Converter)
    (following : List Line) : (converter.turnAt line following).hasChildren = false := by
  have hindent : (converter.turnAt line following).statement.indent = line.indent :=
    indent_first following (not_isBlank_of_continued h)
  rw [Turn.hasChildren, hindent]
  exact decide_eq_false (not_lt_indentOfFirst_of_continued h following)

namespace IsContinuedBlock

theorem not_isBlank (h : IsContinuedBlock line arguments opening) : opening.isBlank = false := by
  refine List.isEmpty_eq_false_iff.mpr fun hnil => ?_
  have hopens := h.opens
  rw [hnil] at hopens
  cases hopens

theorem absorb_eq (h : IsContinuedBlock line arguments opening) (below : List Line) :
    absorb (fun next => line.indent < next.indent) (arguments ++ opening :: below)
      = (((arguments ++ [opening]).filter (!·.isBlank)).map Line.stripped
            ++ (absorb (fun next => line.indent < next.indent) below).1,
          (absorb (fun next => line.indent < next.indent) below).2 + arguments.length + 1) :=
  absorb_append_accepted (fun next hmem hb => decide_eq_true (h.arguments next hmem hb).1) h.not_isBlank
    (decide_eq_true h.deeper) below

/-- The output has the code of its arguments and of all lines that are nested in its block. -/
theorem join_outputLines (h : IsContinuedBlock line arguments opening) (below : List Line) :
    Text.join [' '] (outputLines line (arguments ++ opening :: below))
      = codeOver line (arguments ++ opening :: below.takeWhile (Line.isUnder line.indent)) := by
  have hnested : (absorb (fun next => line.indent < next.indent) below).1
      = ((below.takeWhile (Line.isUnder line.indent)).filter (!·.isBlank)).map Line.stripped :=
    absorb_fst_eq_takeWhile _ below
  rw [outputLines, h.absorb_eq, hnested, ← List.map_append, ← List.filter_append, ← List.append_cons]
  rfl

theorem linesAfter_eq (h : IsContinuedBlock line arguments opening) (below : List Line) :
    linesAfter line (arguments ++ opening :: below)
      = below.drop (absorb (fun next => line.indent < next.indent) below).2 := by
  have hlength : (arguments ++ [opening]).length = arguments.length + 1 := List.length_append
  rw [linesAfter_of_continued h.continued, h.absorb_eq, Nat.add_assoc, ← hlength, Nat.add_comm,
    ← List.drop_drop, List.append_cons arguments opening below, List.drop_left]

/-- The lines nested in the block stay lines of the document only if nothing stands there. -/
theorem linesAfter_eq_iff (h : IsContinuedBlock line arguments opening) (below : List Line) :
    linesAfter line (arguments ++ opening :: below) = below
      ↔ ∀ next ∈ below.takeWhile (Line.isUnder line.indent), next.isBlank = true := by
  have hzero : (absorb (fun next => line.indent < next.indent) below).2 = 0
      ↔ ∀ next ∈ below.takeWhile (Line.isUnder line.indent), next.isBlank = true := absorb_snd_eq_zero_iff
  rw [h.linesAfter_eq, ← hzero]
  refine ⟨fun heq => ?_, fun hnone => by rw [hnone, List.drop_zero]⟩
  have hle : (absorb (fun next => line.indent < next.indent) below).2 ≤ below.length := absorb_snd_le below
  have hlength := congrArg List.length heq
  rw [List.length_drop] at hlength
  omega

end IsContinuedBlock

/--
What it means for an output to keep the block that its last argument opens: the lines below are left for
statements of their own, the code of the output ends with that argument, and a scope that ends the block is
opened if lines are nested in it.
-/
structure KeepsBlock (document : Text) (place : Nat) (turn : Turn) (line : Line) (arguments : List Line)
    (opening : Line) (below : List Line) : Prop where
  lines : linesAfter line (arguments ++ opening :: below) = below
  code : turn.rendering = Rendering.ofOutput (codeOver line (arguments ++ [opening]))
  scope : (∃ next ∈ below.takeWhile (Line.isUnder line.indent), next.isBlank = false) →
    ∃ extent, Turn.OpensScope (Turn.ofDocument document) place extent
      ∧ extent.frame = ⟨line.indent, Erb.endMarker⟩

theorem codeOver_append_of_isBlank {nested : List Line} (h : ∀ next ∈ nested, next.isBlank = true)
    (line : Line) (lines : List Line) : codeOver line (lines ++ nested) = codeOver line lines := by
  have hnone : nested.filter (!·.isBlank) = [] := by simpa using h
  rw [codeOver, List.filter_append, hnone, List.append_nil, codeOver]

/--
An output that goes on, and whose last argument opens a block, is written as one line with the code of its
arguments and of all lines nested in the block, and opens no scope. So the block is kept exactly if nothing
but blank lines is nested in it.
-/
theorem keepsBlock_iff {document : Text} {written : List Chunk} {converter : Converter}
    (hstanding : Standing document written converter (line :: (arguments ++ opening :: below)))
    (hblock : IsContinuedBlock line arguments opening)
    (htaken : (converter.turnAt line (arguments ++ opening :: below)).isTaken = false) :
    let turn := converter.turnAt line (arguments ++ opening :: below)
    let nested := below.takeWhile (Line.isUnder line.indent)
    (∃ body closer, Rendering.ofOutput (codeOver line (arguments ++ opening :: nested)) = .line body closer
        ∧ turn.own = [.line (Text.indentation line.text) body])
      ∧ ∃ place : Nat, (Turn.ofDocument document)[place]? = some turn
        ∧ (∀ extent ∈ Turn.extents (Turn.ofDocument document), extent.opener ≠ place)
        ∧ (KeepsBlock document place turn line arguments opening below
            ↔ ∀ next ∈ nested, next.isBlank = true) := by
  intro turn nested
  have hblank := not_isBlank_of_continued hblock.continued
  have hrendering : turn.rendering = Rendering.ofOutput (codeOver line (arguments ++ opening :: nested)) :=
    (render_of_continued hblock.continued _ _).trans (congrArg _ (hblock.join_outputLines below))
  have hchildren : turn.hasChildren = false := hasChildren_of_continued hblock.continued _ _
  have hopens : turn.opens? = none := by simp [Turn.opens?, hchildren]
  obtain ⟨place, hplace⟩ := hstanding.exists_place
  refine ⟨?_, place, hplace, Turn.no_extent_of_opens?_eq_none hplace hopens, fun hkeeps => ?_, fun hnone => ?_⟩
  · obtain ⟨body, hline, _⟩ :=
      Rendering.ofOutput_eq (codeOver line (arguments ++ opening :: nested))
    have hstatement : turn.statement.isBlank = false := isBlank_first _ hblank
    have hrendered : turn.isRendered = true := by
      rw [Turn.isRendered, show turn.isTaken = false from htaken, hstatement]
      rfl
    refine ⟨body, _, hline, ?_⟩
    rw [Turn.own_of_line hrendered (hrendering.trans hline)]
    exact congrArg (fun indentation => [Chunk.line indentation body]) (indentation_first _ hblank)
  · exact (hblock.linesAfter_eq_iff below).mp hkeeps.lines
  · refine ⟨(hblock.linesAfter_eq_iff below).mpr hnone, ?_, ?_⟩
    · rw [hrendering, List.append_cons, codeOver_append_of_isBlank hnone]
    · rintro ⟨next, hmem, hb⟩
      rw [hnone next hmem] at hb
      cases hb

/-- A block with nothing nested in it is kept, whatever comes after it. -/
theorem keepsBlock_empty :
    ∃ place turn, KeepsBlock "= tag.ul id: 'x',\n    data: 1,\n  class: 'y' do\n\n%p\n".toList place turn
      ⟨"= tag.ul id: 'x',".toList, true⟩ [⟨"    data: 1,".toList, true⟩] ⟨"  class: 'y' do".toList, true⟩
      [⟨[], true⟩, ⟨"%p".toList, true⟩] := by
  have hstanding : Standing "= tag.ul id: 'x',\n    data: 1,\n  class: 'y' do\n\n%p\n".toList [] .start
      (⟨"= tag.ul id: 'x',".toList, true⟩ :: ([⟨"    data: 1,".toList, true⟩]
        ++ ⟨"  class: 'y' do".toList, true⟩ :: [⟨[], true⟩, ⟨"%p".toList, true⟩])) := .start
  have hblock : IsContinuedBlock ⟨"= tag.ul id: 'x',".toList, true⟩ [⟨"    data: 1,".toList, true⟩]
      ⟨"  class: 'y' do".toList, true⟩ := ⟨by decide, by decide, by decide, by decide⟩
  obtain ⟨_, place, _, _, hkeeps⟩ := keepsBlock_iff hstanding hblock (by decide +kernel)
  exact ⟨place, _, hkeeps.mpr (by decide)⟩

/--
The line nested in the block of a form becomes part of its arguments, and the block has no end. With all
arguments on one line the block is kept.
-/
theorem not_keepsBlock_of_nested :
    IsContinuedBlock ⟨"= form_for @user,".toList, true⟩ [] ⟨"  class: 'wide' do |f|".toList, true⟩
      ∧ (∀ place turn, ¬ KeepsBlock "= form_for @user,\n  class: 'wide' do |f|\n  %p hi\n".toList place turn
          ⟨"= form_for @user,".toList, true⟩ [] ⟨"  class: 'wide' do |f|".toList, true⟩
          [⟨"  %p hi".toList, true⟩])
      ∧ (convert "= form_for @user,\n  class: 'wide' do |f|\n  %p hi\n".toList).page
        = "<%= form_for @user, class: 'wide' do |f| %p hi %>\n".toList
      ∧ (convert "= form_for @user, class: 'wide' do |f|\n  %p hi\n".toList).page
        = "<%= form_for @user, class: 'wide' do |f| %>\n  <p>hi</p>\n<% end %>\n".toList := by
  refine ⟨⟨by decide, by decide, by decide, by decide⟩, fun place turn hkeeps => ?_, by decide +kernel,
    by decide +kernel⟩
  exact absurd hkeeps.lines (by decide +kernel)

end Statement

end Haml
