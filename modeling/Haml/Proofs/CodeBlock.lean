import Haml.Proofs.Balance
import Haml.Proofs.Opaque

/-!
# Blocks of code

Code can open a block: with `do` at its end, or with a keyword at its start. The block of a statement
with lines nested under it is ended by the marker of the one scope that the statement opens. There are
two exceptions, which main statements tell apart from all other statements: an output with an escaping of
its own opens no scope, whatever its code; and neither does a keyword whose first clause follows at the
keyword's own indent.
-/

namespace Haml

/-! ## Blocks opened with `do` -/

namespace Statement

/--
The code that a statement writes, with the opening of the code's tag: a statement of code, an output, or
the content of an element that has an end tag. A comment after the code of an output is not part of it, and
a line that goes on with a block writes no code in this sense.
-/
inductive Writes (statement : Statement) : (opening code : Text) → Prop where
  | output : statement.kind = .output →
      Writes statement "<%= ".toList
        (Rendering.withoutComment (Text.trim (statement.stripped.drop 1)))
  | code : statement.kind = .code → Code.isContinuation statement.stripped = false →
      Writes statement "<% ".toList (Text.trim (statement.stripped.drop 1))
  | escapedOutput : statement.kind = .escapedOutput →
      Writes statement "<%= ".toList (Text.trim (statement.stripped.drop 2))
  | unescapedOutput : statement.kind = .unescapedOutput →
      Writes statement "<%== ".toList (Text.trim (statement.stripped.drop 2))
  | content {tag : Tag} {escaping : Escaping} {code : Text} : statement.tag? = some tag →
      Html.isVoid tag.name = false → tag.content = .output escaping code →
      Writes statement escaping.opening code

variable {statement : Statement} {opening code : Text}

theorem kind_of_tag? {tag : Tag} (h : statement.tag? = some tag) :
    statement.kind ≠ .escapedOutput ∧ statement.kind ≠ .unescapedOutput := by
  refine ⟨fun hkind => ?_, fun hkind => ?_⟩ <;>
  · rw [tag?, hkind] at h
    cases h

/--
A statement with nested lines whose code ends with `do` owes the end of the block, unless it is an output
with an escaping of its own.
-/
theorem Writes.closer (h : statement.Writes opening code) (hblock : Code.hasDoBlock code = true) :
    ∃ body closer, statement.render true = .line body closer
      ∧ opening ++ code ++ " %>".toList <:+: body
      ∧ (statement.kind ≠ .escapedOutput ∧ statement.kind ≠ .unescapedOutput →
          ∃ marker, closer = some marker ∧ Erb.endMarker <+: marker)
      ∧ (statement.kind = .escapedOutput ∨ statement.kind = .unescapedOutput → closer = none) := by
  have hend : ∃ marker, Rendering.endIf true = some marker ∧ Erb.endMarker <+: marker :=
    ⟨Erb.endMarker, rfl, List.prefix_rfl⟩
  cases h with
  | output hkind =>
      obtain ⟨body, hline, hbody⟩ :=
        Rendering.ofOutput_eq (Text.trim (statement.stripped.drop 1))
      rw [hblock] at hline
      refine ⟨body, _, ?_, hbody.isInfix, fun _ => hend, ?_⟩
      · rw [kind] at hkind
        simp only [render, Rendering.ofContent, hkind, hline]
      · rintro (hne | hne) <;> rw [hkind] at hne <;> cases hne
  | code hkind hcontinues =>
      have hopens : Code.opensBlock (Text.trim (statement.stripped.drop 1)) = true := by
        rw [Code.opensBlock, Text.trim_trim, hblock, Bool.or_true]
      refine ⟨_, _, ?_, List.infix_rfl, fun _ => hend, ?_⟩
      · rw [kind] at hkind
        simp only [render, Rendering.ofContent, hkind, Rendering.ofCode, hcontinues, hopens]
        rfl
      · rintro (hne | hne) <;> rw [hkind] at hne <;> cases hne
  | escapedOutput hkind =>
      refine ⟨_, _, ?_, List.infix_rfl, fun hne => absurd hkind hne.1, fun _ => rfl⟩
      rw [kind] at hkind
      simp only [render, Rendering.ofContent, hkind]
      rfl
  | unescapedOutput hkind =>
      refine ⟨_, _, ?_, List.infix_rfl, fun hne => absurd hkind hne.2, fun _ => rfl⟩
      rw [kind] at hkind
      simp only [render, Rendering.ofContent, hkind]
      rfl
  | @content tag escaping _ htag hvoid hcontent =>
      obtain ⟨_, hrender⟩ := of_tag? htag
      have hcloser : (tag.write true).closer = some (Erb.endMarker ++ Html.endTag tag.name) := by
        simp [Tag.write, hvoid, hcontent, hblock]
      refine ⟨_, _, hrender true, tag.output_infix_write hvoid hcontent true,
        fun _ => ⟨_, hcloser, List.prefix_append _ _⟩, fun hne => ?_⟩
      obtain ⟨hescaped, hunescaped⟩ := kind_of_tag? htag
      exact absurd hne (not_or.mpr ⟨hescaped, hunescaped⟩)

end Statement

namespace Turn

variable {turn : Turn}

theorem own_of_line (hr : turn.isRendered = true) {body : Text} {closer : Option Text}
    (hline : turn.rendering = .line body closer) :
    turn.own = [.line turn.statement.indentation body] := by
  obtain ⟨htaken, hblank⟩ : turn.isTaken = false ∧ turn.statement.isBlank = false := by
    simpa [isRendered] using hr
  simp [own, htaken, hblank, hline]

theorem opens?_of_line (hr : turn.isRendered = true) (hchildren : turn.hasChildren = true)
    {body : Text} {closer : Option Text} (hline : turn.rendering = .line body closer) :
    turn.opens? = closer.map fun closer => ⟨turn.statement.indent, closer⟩ := by
  cases closer <;> simp [opens?, hr, hchildren, hline]

end Turn

/--
Each block that code opens with `do` over nested lines is ended by the one scope that the statement opens,
whose marker starts with the end of the block, exactly if the statement is not an output with an escaping
of its own. Such an output opens no scope.
-/
theorem do_block_ended_iff (document : Text) :
    let turns := Turn.ofDocument document
    (Converter.start.run (Statement.ofDocument document)).1 = Turn.page turns
      ∧ (convert document).stats.framesOpened = (Turn.extents turns).length
      ∧ ∀ place turn opening code, turns[place]? = some turn → turn.isRendered = true →
          turn.hasChildren = true → turn.statement.Writes opening code →
          Code.hasDoBlock code = true →
            (∃ body, turn.own = [.line turn.statement.indentation body]
                ∧ opening ++ code ++ " %>".toList <:+: body)
              ∧ ((∃ extent, Turn.OpensScope turns place extent
                    ∧ Erb.endMarker <+: extent.frame.closer)
                  ↔ turn.statement.kind ≠ .escapedOutput ∧ turn.statement.kind ≠ .unescapedOutput)
              ∧ (turn.statement.kind = .escapedOutput ∨ turn.statement.kind = .unescapedOutput →
                  ∀ extent ∈ Turn.extents turns, extent.opener ≠ place) := by
  refine ⟨Converter.run_start_fst document, congrArg Scopes.opened (Converter.run_start_scopes document),
    fun place turn opening code hturn hr hchildren hwrites hblock => ?_⟩
  obtain ⟨body, closer, hrender, hbody, howes, hnone⟩ := hwrites.closer hblock
  have hline : turn.rendering = .line body closer := by rw [Turn.rendering, hchildren, hrender]
  have hopens := Turn.opens?_of_line hr hchildren hline
  have hno : turn.statement.kind = .escapedOutput ∨ turn.statement.kind = .unescapedOutput →
      ∀ extent ∈ Turn.extents (Turn.ofDocument document), extent.opener ≠ place := by
    intro hkind
    rw [hnone hkind] at hopens
    exact Turn.no_extent_of_opens?_eq_none hturn hopens
  refine ⟨⟨body, Turn.own_of_line hr hline, hbody⟩, ⟨?_, fun hkind => ?_⟩, hno⟩
  · rintro ⟨extent, hscope, _⟩
    obtain ⟨hmem, hopener⟩ := (hscope.only extent).mpr rfl
    exact ⟨fun hkind => hno (.inl hkind) extent hmem hopener,
      fun hkind => hno (.inr hkind) extent hmem hopener⟩
  · obtain ⟨marker, rfl, hmarker⟩ := howes hkind
    obtain ⟨extent, hscope, hframe⟩ := Turn.exists_opensScope hturn hopens
    exact ⟨extent, hscope, by rw [hframe]; exact hmarker⟩

/-- The block of an escaped output has lines nested under it, and no end. -/
theorem do_block_not_ended :
    (∃ turn, (Turn.ofDocument "&= form_for x do\n  %p hi\n".toList)[0]? = some turn
        ∧ turn.isRendered = true ∧ turn.hasChildren = true
        ∧ turn.statement.Writes "<%= ".toList "form_for x do".toList
        ∧ Code.hasDoBlock "form_for x do".toList = true)
      ∧ (∀ extent ∈ Turn.extents (Turn.ofDocument "&= form_for x do\n  %p hi\n".toList),
          extent.opener ≠ 0)
      ∧ (convert "&= form_for x do\n  %p hi\n".toList).page
        = "<%= form_for x do %>\n  <p>hi</p>\n".toList := by
  have hturn : (Turn.ofDocument "&= form_for x do\n  %p hi\n".toList)[0]?
      = some ⟨none, Statement.single ⟨"&= form_for x do".toList, true⟩, 2⟩ := by decide +kernel
  refine ⟨⟨_, hturn, by decide, by decide, ?_, by decide⟩, by decide +kernel, by decide +kernel⟩
  have hcode : Text.trim ((Statement.single ⟨"&= form_for x do".toList, true⟩).stripped.drop 2)
      = "form_for x do".toList := by decide
  exact hcode ▸ .escapedOutput (by decide)

/-! ## Constructs with keywords -/

/-- A statement of code that starts a construct: its first word is a keyword that opens a block. -/
structure Statement.StartsConstruct (statement : Statement) : Prop where
  kind : statement.kind = .code
  not_isContinuation : Code.isContinuation statement.stripped = false
  keyword : Code.firstWord (Text.trim (statement.stripped.drop 1)) ∈ Code.blockKeywords

theorem Statement.StartsConstruct.render {statement : Statement} (h : statement.StartsConstruct)
    (hasChildren : Bool) :
    statement.render hasChildren
      = .line (Erb.statement (Text.trim (statement.stripped.drop 1))) (some Erb.endMarker) := by
  have hopens : Code.opensBlock (Text.trim (statement.stripped.drop 1)) = true := by
    rw [Code.opensBlock, Text.trim_trim, List.contains_iff_mem.mpr h.keyword, Bool.true_or]
  have hkind := h.kind
  rw [Statement.kind] at hkind
  simp only [Statement.render, Rendering.ofContent, hkind, Rendering.ofCode, h.not_isContinuation,
    hopens]
  rfl

/--
Whether the statement at a place is followed, blank statements aside, by a deeper one, or by one of the
same indent that goes on with a block.
-/
def Turn.IsContinued (turns : List Turn) (place : Nat) (turn : Turn) : Prop :=
  ∃ next ∈ (turns.drop (place + 1)).find? (!·.statement.isBlank),
    turn.statement.indent < next.statement.indent
      ∨ next.statement.indent = turn.statement.indent
        ∧ Code.isContinuation next.statement.stripped = true

/--
A construct that starts with a keyword over nested lines is ended by the one scope that the statement
opens: its marker is written before the first later statement that is rendered and less deep, or just as
deep and no continuation, or at the end of the page. A construct without nested lines opens no scope,
whatever follows.
-/
theorem construct_ended_iff (document : Text) :
    let turns := Turn.ofDocument document
    (Converter.start.run (Statement.ofDocument document)).1 = Turn.page turns
      ∧ (convert document).stats.framesOpened = (Turn.extents turns).length
      ∧ ∀ place turn, turns[place]? = some turn → turn.isRendered = true →
          turn.statement.StartsConstruct →
            ((∃ extent, Turn.OpensScope turns place extent
                ∧ extent.frame = ⟨turn.statement.indent, Erb.endMarker⟩) ↔ turn.hasChildren = true)
              ∧ (turn.hasChildren = false → ∀ extent ∈ Turn.extents turns, extent.opener ≠ place) := by
  refine ⟨Converter.run_start_fst document, congrArg Scopes.opened (Converter.run_start_scopes document),
    fun place turn hturn hr hstarts => ?_⟩
  have hno : turn.hasChildren = false →
      ∀ extent ∈ Turn.extents (Turn.ofDocument document), extent.opener ≠ place := by
    intro hchildren
    refine Turn.no_extent_of_opens?_eq_none hturn ?_
    simp [Turn.opens?, hchildren]
  refine ⟨⟨?_, fun hchildren => ?_⟩, hno⟩
  · rintro ⟨extent, hscope, _⟩
    obtain ⟨hmem, hopener⟩ := (hscope.only extent).mpr rfl
    cases hchildren : turn.hasChildren with
    | true => rfl
    | false => exact absurd hopener (hno hchildren extent hmem)
  · have hline := hstarts.render turn.hasChildren
    exact Turn.exists_opensScope hturn (Turn.opens?_of_line hr hchildren hline)

/-- A case whose clauses stand at its own indent has no end. -/
theorem construct_not_ended :
    (∃ turn, (Turn.ofDocument "- case x\n- when 1\n  %p one\n".toList)[0]? = some turn
        ∧ turn.isRendered = true ∧ turn.statement.StartsConstruct
        ∧ Turn.IsContinued (Turn.ofDocument "- case x\n- when 1\n  %p one\n".toList) 0 turn)
      ∧ (∀ extent ∈ Turn.extents (Turn.ofDocument "- case x\n- when 1\n  %p one\n".toList),
          extent.opener ≠ 0)
      ∧ (convert "- case x\n- when 1\n  %p one\n".toList).page
        = "<% case x %>\n<% when 1 %>\n  <p>one</p>\n".toList := by
  have hturn : (Turn.ofDocument "- case x\n- when 1\n  %p one\n".toList)[0]?
      = some ⟨none, Statement.single ⟨"- case x".toList, true⟩, 0⟩ := by decide +kernel
  have hnext : ((Turn.ofDocument "- case x\n- when 1\n  %p one\n".toList).drop 1).find?
      (!·.statement.isBlank) = some ⟨none, Statement.single ⟨"- when 1".toList, true⟩, 2⟩ := by
    decide +kernel
  refine ⟨⟨_, hturn, by decide, ⟨by decide, by decide, by decide⟩, ?_⟩, by decide +kernel,
    by decide +kernel⟩
  exact ⟨_, hnext, .inr (by decide)⟩

end Haml
