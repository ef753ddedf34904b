import Haml.Proofs.Element
import Haml.Proofs.Stack

/-!
# Standings

A conversion stands, between two statements, at the scopes and the filter that are open. It gets from
one standing to the next by moves, each of which opens or closes one scope or one filter, or writes
one piece of the page. No move that has to do with scopes is made while a filter is open. Main
statement: what no move breaks holds at every standing, and nothing is open at the end.
-/

namespace Haml

/-! ## Closers -/

/-- The texts that close scopes: the end of a block, of an element, or of a block in an element. -/
inductive IsCloser : Text → Prop where
  | block : IsCloser Erb.endMarker
  | element {name : Text} : Html.IsName name → Html.isVoid name = false →
      IsCloser (Html.endTag name)
  | blockInElement {name : Text} : Html.IsName name → Html.isVoid name = false →
      IsCloser (Erb.endMarker ++ Html.endTag name)

theorem Turn.isCloser_of_opens? {turn : Turn} {frame : Frame} (h : turn.opens? = some frame) :
    IsCloser frame.closer := by
  obtain ⟨_, _, _, body, hline⟩ := eq_of_opens? h
  cases ht : turn.statement.tag? with
  | none =>
      rw [Statement.closer_of_tag?_eq_none ht hline]
      exact .block
  | some tag =>
      obtain ⟨hparse, hrender⟩ := Statement.of_tag? ht
      have hname := Tag.isName_of_parse? hparse
      rw [rendering, hrender, Rendering.line.injEq] at hline
      obtain ⟨_, hcloser⟩ := hline
      cases hvoid : Html.isVoid tag.name with
      | true =>
          rw [(Tag.isStart_write hvoid turn.hasChildren).closer] at hcloser
          cases hcloser
      | false =>
          rcases Tag.isWhole_or_isOpen_write hname hvoid turn.hasChildren with hwhole | ⟨_, hopen⟩
          · rw [hwhole.closer] at hcloser
            cases hcloser
          · rcases hopen.closer with heq | heq
            · rw [heq, Option.some.injEq] at hcloser
              exact hcloser ▸ .element hname hvoid
            · rw [heq, Option.some.injEq] at hcloser
              exact hcloser ▸ .blockInElement hname hvoid

/-! ## Moves -/

/--
One move of a conversion: what it writes, and the standing that it leads to. A scope opens inside of
those that are open, with a text that closes scopes, and the innermost one closes first; a filter opens
inside of all scopes. None of this, and no rendered line, comes while a filter is open.
-/
inductive Move : Converter → List Chunk → Converter → Prop where
  | copy (converter : Converter) (text : Text) : Move converter [.raw text] converter
  | line (converter : Converter) (indentation body : Text) : converter.filters.active = none →
      Move converter [.line indentation body] converter
  | verbatim (converter : Converter) (indentation body : Text) : converter.filters.active = none →
      Move converter [.line indentation body] { converter with verbatim := converter.verbatim + 1 }
  | openScope (converter : Converter) (frame : Frame) : converter.filters.active = none →
      (∀ outer ∈ converter.scopes.frames, outer.indent < frame.indent) → IsCloser frame.closer →
      Move converter [] { converter with scopes := converter.scopes.push frame }
  | closeScope (converter : Converter) (frame : Frame) (outer : List Frame) :
      converter.filters.active = none → converter.scopes.frames = frame :: outer →
      Move converter [frame.closeLine]
        { converter with
          scopes := { converter.scopes with frames := outer, closed := converter.scopes.closed + 1 } }
  | openFilter (converter : Converter) (filter : OpenFilter) : converter.filters.active = none →
      (∀ frame ∈ converter.scopes.frames, frame.indent < filter.indent) →
      Move converter [.indented filter.indent filter.kind.opening]
        { converter with filters := ⟨some filter, converter.filters.opened + 1⟩ }
  | closeFilter (converter : Converter) (filter : OpenFilter) :
      converter.filters.active = some filter →
      Move converter [filter.closeLine]
        { converter with filters := { converter.filters with active := none } }

/-- Moves one after the other, with all that they write. -/
inductive Moves : Converter → List Chunk → Converter → Prop where
  | nil (converter : Converter) : Moves converter [] converter
  | cons {before middle after : Converter} {chunks more : List Chunk} : Move before chunks middle →
      Moves middle more after → Moves before (chunks ++ more) after

namespace Moves

variable {before middle after : Converter} {chunks more : List Chunk}

theorem single (h : Move before chunks after) : Moves before chunks after := by
  simpa using Moves.cons h (.nil after)

theorem trans (h : Moves before chunks middle) (h' : Moves middle more after) :
    Moves before (chunks ++ more) after := by
  induction h with
  | nil => exact h'
  | cons hmove _ ih =>
      rw [List.append_assoc]
      exact .cons hmove (ih h')

end Moves

/-- While a filter is open, no move opens or closes a scope, or opens a second filter. -/
theorem Move.keeps_scopes {before after : Converter} {chunks : List Chunk}
    (h : Move before chunks after) {filter : OpenFilter}
    (hf : before.filters.active = some filter) :
    after.scopes = before.scopes ∧ after.filters.opened = before.filters.opened
      ∧ (after.filters.active = some filter ∨ after.filters.active = none) := by
  cases h with
  | copy => exact ⟨rfl, rfl, .inl hf⟩
  | closeFilter => exact ⟨rfl, rfl, .inr rfl⟩
  | line _ _ hnone => rw [hnone] at hf; cases hf
  | verbatim _ _ hnone => rw [hnone] at hf; cases hf
  | openScope _ hnone => rw [hnone] at hf; cases hf
  | closeScope _ _ hnone => rw [hnone] at hf; cases hf
  | openFilter _ hnone => rw [hnone] at hf; cases hf

/-! ## What holds at every standing -/

namespace Converter

/-- What no move breaks. -/
structure Sound (converter : Converter) : Prop where
  ordered : Ordered converter.scopes.frames
  closers : ∀ frame ∈ converter.scopes.frames, IsCloser frame.closer
  /-- An open filter is deeper than all open scopes. -/
  innermost : ∀ filter ∈ converter.filters.active, ∀ frame ∈ converter.scopes.frames,
    frame.indent < filter.indent
  counted : converter.scopes.opened = converter.scopes.closed + converter.scopes.frames.length

theorem sound_start : start.Sound where
  ordered := .nil
  closers := fun _ h => by cases h
  innermost := fun _ h => by cases h
  counted := rfl

end Converter

theorem Move.sound {before after : Converter} {chunks : List Chunk} (h : Move before chunks after)
    (hs : before.Sound) : after.Sound := by
  cases h with
  | copy => exact hs
  | line => exact hs
  | verbatim => exact ⟨hs.ordered, hs.closers, hs.innermost, hs.counted⟩
  | openScope frame hnone hinner hcloser =>
      refine ⟨List.pairwise_cons.mpr ⟨hinner, hs.ordered⟩,
        List.forall_mem_cons.mpr ⟨hcloser, hs.closers⟩, fun filter hfilter => ?_, ?_⟩
      · rw [hnone] at hfilter
        cases hfilter
      · simp only [Scopes.push, List.length_cons, hs.counted]
        omega
  | closeScope frame outer hnone hframes =>
      obtain ⟨hordered, hclosers, _, hcounted⟩ := hs
      rw [hframes] at hordered hclosers hcounted
      refine ⟨(List.pairwise_cons.mp hordered).2, (List.forall_mem_cons.mp hclosers).2,
        fun filter hfilter => ?_, ?_⟩
      · rw [hnone] at hfilter
        cases hfilter
      · simp only [hcounted, List.length_cons]
        omega
  | openFilter filter hnone hinner =>
      refine ⟨hs.ordered, hs.closers, fun found hfound => ?_, hs.counted⟩
      obtain rfl := Option.mem_some.mp hfound
      exact hinner
  | closeFilter filter hfilter =>
      exact ⟨hs.ordered, hs.closers, fun _ h => (by cases h), hs.counted⟩

theorem Moves.sound {before after : Converter} {chunks : List Chunk} (h : Moves before chunks after)
    (hs : before.Sound) : after.Sound := by
  induction h with
  | nil => exact hs
  | cons hmove _ ih => exact ih (hmove.sound hs)

/-! ## Steps -/

theorem Moves.closeScopes {converter : Converter} (hnone : converter.filters.active = none)
    (ended : List Frame) {outer : List Frame} (h : converter.scopes.frames = ended ++ outer) :
    Moves converter (ended.map Frame.closeLine)
      { converter with
        scopes :=
          { converter.scopes with
            frames := outer
            closed := converter.scopes.closed + ended.length } } := by
  induction ended generalizing converter with
  | nil =>
      obtain rfl : converter.scopes.frames = outer := h
      exact .nil converter
  | cons frame rest ih =>
      refine .cons (.closeScope converter frame (rest ++ outer) hnone h) ?_
      have hlater := @ih
        { converter with
          scopes :=
            { converter.scopes with
              frames := rest ++ outer
              closed := converter.scopes.closed + 1 } } hnone rfl
      simpa only [List.length_cons, Nat.add_assoc, Nat.add_comm 1] using hlater

theorem Moves.closeFilter (converter : Converter) :
    Moves converter (converter.filters.active.toList.map OpenFilter.closeLine)
      { converter with filters := ⟨none, converter.filters.opened⟩ } := by
  cases hf : converter.filters.active with
  | none =>
      have hsame : (⟨none, converter.filters.opened⟩ : Filters) = converter.filters := by rw [← hf]
      rw [hsame]
      exact .nil converter
  | some filter => exact .single (.closeFilter converter filter hf)

namespace Turn

variable {turn : Turn}

/-- What a rendered statement writes and opens, once the filter and its scopes are closed. -/
theorem moves_own (h : turn.isRendered = true) {scopes : Scopes} (opened verbatim : Nat)
    (hinner : Code.isContinuation turn.statement.stripped = false →
      ∀ frame ∈ scopes.frames, frame.indent < turn.statement.indent) :
    Moves ⟨scopes, ⟨none, opened⟩, verbatim⟩ turn.own
      { scopes :=
          { scopes with
            frames := turn.opens?.toList ++ scopes.frames
            opened := scopes.opened + turn.opens?.toList.length }
        filters := ⟨turn.filterAfter, opened + turn.startsFilter.toNat⟩
        verbatim := verbatim + turn.isVerbatim.toNat } := by
  obtain ⟨htaken, hblank⟩ : turn.isTaken = false ∧ turn.statement.isBlank = false := by
    simpa [isRendered] using h
  cases hr : turn.rendering with
  | line body closer =>
      have hline : Moves ⟨scopes, ⟨none, opened⟩, verbatim⟩
          [.line turn.statement.indentation body] ⟨scopes, ⟨none, opened⟩, verbatim⟩ :=
        .single (.line _ _ _ rfl)
      cases ho : turn.opens? with
      | none => simpa [own, startsFilter, isVerbatim, filterAfter, htaken, hblank, hr, h] using hline
      | some frame =>
          obtain ⟨_, _, hindent, _⟩ := eq_of_opens? ho
          have hopen := Move.openScope ⟨scopes, ⟨none, opened⟩, verbatim⟩ frame rfl
            (fun outer houter => hindent ▸ hinner (not_isContinuation_of_opens? ho) outer houter)
            (isCloser_of_opens? ho)
          have hboth := hline.trans (.single hopen)
          simpa [own, startsFilter, isVerbatim, filterAfter, htaken, hblank, hr, h, Scopes.push]
            using hboth
  | filter kind =>
      -- A continuation may stand at the indent of an open scope, but it is never a filter.
      have hc : Code.isContinuation turn.statement.stripped = false := by
        cases hc : Code.isContinuation turn.statement.stripped with
        | false => rfl
        | true =>
            obtain ⟨body, hbody⟩ := Rendering.ofContent_of_isContinuation hc turn.hasChildren
            rw [rendering, Statement.render, hbody] at hr
            cases hr
      have hopen := Move.openFilter ⟨scopes, ⟨none, opened⟩, verbatim⟩ ⟨kind, turn.statement.indent⟩
        rfl (hinner hc)
      simpa [own, opens?, startsFilter, isVerbatim, filterAfter, htaken, hblank, hr, h]
        using Moves.single hopen
  | verbatim =>
      have hline := Move.verbatim ⟨scopes, ⟨none, opened⟩, verbatim⟩ turn.statement.indentation
        turn.statement.stripped rfl
      simpa [own, opens?, startsFilter, isVerbatim, filterAfter, htaken, hblank, hr, h]
        using Moves.single hline

theorem moves_of_not_isRendered (h : turn.isRendered = false) (converter : Converter) :
    Moves converter turn.own converter := by
  have hcopies : ∀ texts : List Text, Moves converter (texts.map .raw) converter := by
    intro texts
    induction texts with
    | nil => exact .nil converter
    | cons text rest ih => exact .cons (.copy converter text) ih
  cases htaken : turn.isTaken with
  | true => simpa [own, htaken] using hcopies [turn.statement.text, ['\n']]
  | false =>
      have hblank : turn.statement.isBlank = true := by simpa [isRendered, htaken] using h
      cases hend : turn.statement.terminated with
      | true =>
          simpa [own, htaken, hblank, Converter.copyBlank, hend]
            using hcopies [turn.statement.text, ['\n']]
      | false =>
          simpa [own, htaken, hblank, Converter.copyBlank, hend] using hcopies [turn.statement.text]

end Turn

namespace Converter

variable {converter : Converter}

theorem moves_step (hs : converter.Sound) (statement : Statement) (nextIndent : Nat) :
    Moves converter (converter.step statement nextIndent).1
      (converter.step statement nextIndent).2 := by
  let turn : Turn := ⟨converter.filters.active, statement, nextIndent⟩
  have hturn : turn = ⟨converter.filters.active, statement, nextIndent⟩ := rfl
  cases hr : turn.isRendered with
  | false =>
      have hkeeps : ∃ chunks, converter.step statement nextIndent = (chunks, converter)
          ∧ chunks = turn.own := by
        cases htaken : turn.isTaken with
        | true => exact ⟨_, step_of_isTaken hturn htaken, rfl⟩
        | false =>
            have hblank : statement.isBlank = true := by
              simpa [Turn.isRendered, htaken] using hr
            exact ⟨_, step_of_isBlank hturn htaken hblank, rfl⟩
      obtain ⟨_, hstep, rfl⟩ := hkeeps
      rw [hstep]
      exact Turn.moves_of_not_isRendered hr converter
  | true =>
      have htaken : turn.isTaken = false := by
        simpa using (Bool.and_eq_true_iff.mp hr).1
      have hend : turn.filterEnd = converter.filters.active.toList.map OpenFilter.closeLine := by
        simp [Turn.filterEnd, htaken, turn]
      have hsplit : converter.scopes.frames = converter.scopes.frames.takeWhile (turn.ends ·.indent)
          ++ converter.scopes.frames.dropWhile (turn.ends ·.indent) :=
        List.takeWhile_append_dropWhile.symm
      have hinner : Code.isContinuation turn.statement.stripped = false →
          ∀ frame ∈ converter.scopes.frames.dropWhile (turn.ends ·.indent),
            frame.indent < turn.statement.indent := fun hc _ =>
        Turn.lt_indent_of_mem_dropWhile hs.ordered hr hc
      rw [step_of_isRendered hturn hr, hend]
      -- The moves come in the order of the page: the filter, its scopes, then the statement.
      refine ((Moves.closeFilter converter).trans (Moves.closeScopes rfl _ hsplit)).trans ?_
      exact Turn.moves_own hr _ _ hinner

theorem moves_finish (converter : Converter) : Moves converter converter.finish.1 converter.finish.2 := by
  rw [finish_fst, finish_snd]
  exact (Moves.closeFilter converter).trans
    (Moves.closeScopes rfl converter.scopes.frames (List.append_nil _).symm)

theorem moves_run (hs : converter.Sound) (statements : List Statement) :
    Moves converter (converter.run statements).1 (converter.run statements).2 := by
  induction statements generalizing converter with
  | nil => exact moves_finish converter
  | cons statement following ih =>
      have hstep := moves_step hs statement (Statement.indentOfFirst following)
      exact hstep.trans (ih (hstep.sound hs))

theorem closed_run (statements : List Statement) (converter : Converter) :
    (converter.run statements).2.scopes.frames = []
      ∧ (converter.run statements).2.filters.active = none := by
  induction statements generalizing converter with
  | nil => simp [run, finish_snd]
  | cons statement following ih => exact ih _

/-- The converter with its filter closed. -/
def withoutFilter (converter : Converter) : Converter :=
  { converter with filters := { converter.filters with active := none } }

/-- A step over a statement that the open filter does not take closes the filter before all else. -/
theorem step_of_not_takes {filter : OpenFilter} (hf : converter.filters.active = some filter)
    {statement : Statement} (h : converter.filters.takes statement = false) (nextIndent : Nat) :
    converter.step statement nextIndent
      = (filter.closeLine :: (converter.withoutFilter.step statement nextIndent).1,
          (converter.withoutFilter.step statement nextIndent).2) := by
  have hfinish : converter.filters.finish
      = ([filter.closeLine], ⟨none, converter.filters.opened⟩) := by
    simp [Filters.finish, hf, OpenFilter.closeLine]
  have hnone : (⟨none, converter.filters.opened⟩ : Filters).takes statement = false := rfl
  have hclosed : (⟨none, converter.filters.opened⟩ : Filters).finish
      = ([], ⟨none, converter.filters.opened⟩) := rfl
  simp [step, withoutFilter, Filters.absorb?, h, hnone, hfinish, hclosed]

/-- A step from an open filter changes nothing, or closes the filter before all else. -/
theorem step_of_active {filter : OpenFilter} (hf : converter.filters.active = some filter)
    (statement : Statement) (nextIndent : Nat) :
    (converter.step statement nextIndent).2 = converter
      ∨ converter.step statement nextIndent
        = (filter.closeLine :: (converter.withoutFilter.step statement nextIndent).1,
            (converter.withoutFilter.step statement nextIndent).2) := by
  cases htakes : converter.filters.takes statement with
  | true => exact .inl (by simp [step, Filters.absorb?, htakes])
  | false => exact .inr (step_of_not_takes hf htakes nextIndent)

end Converter

/-! ## Standings of a document -/

/-- The lines that are left after the statement that starts at `line`. -/
def Statement.linesAfter (line : Line) (following : List Line) : List Line :=
  following.drop ((first line following).span - 1)

namespace Converter

/-- The indent of what comes after the statement that starts at `line`. -/
def indentAfter (line : Line) (following : List Line) : Nat :=
  Statement.indentOfFirst (Statement.ofLines (Statement.linesAfter line following))

/-- The statement that starts at `line`, in its place. -/
def turnAt (converter : Converter) (line : Line) (following : List Line) : Turn :=
  ⟨converter.filters.active, Statement.first line following, indentAfter line following⟩

/-- The step over the statement that starts at `line`. -/
def stepAt (converter : Converter) (line : Line) (following : List Line) : List Chunk × Converter :=
  converter.step (Statement.first line following) (indentAfter line following)

theorem stepAt_eq (converter : Converter) (line : Line) (following : List Line) :
    converter.stepAt line following
      = ((converter.turnAt line following).filterEnd
          ++ (converter.scopes.frames.takeWhile
            ((converter.turnAt line following).ends ·.indent)).map Frame.closeLine
          ++ (converter.turnAt line following).own,
        (converter.turnAt line following).after converter) :=
  step_eq rfl

theorem run_ofLines_cons (converter : Converter) (line : Line) (following : List Line) :
    converter.run (Statement.ofLines (line :: following))
      = ((converter.stepAt line following).1
            ++ ((converter.stepAt line following).2.run
              (Statement.ofLines (Statement.linesAfter line following))).1,
          ((converter.stepAt line following).2.run
            (Statement.ofLines (Statement.linesAfter line following))).2) := by
  rw [Statement.ofLines]
  rfl

end Converter

/--
The conversion of a document stands at `converter` before `lines`, and has written `written` so far.
-/
inductive Standing (document : Text) : List Chunk → Converter → List Line → Prop where
  | start : Standing document [] Converter.start (Line.ofDocument document)
  | next {written : List Chunk} {converter : Converter} {line : Line} {following : List Line} :
      Standing document written converter (line :: following) →
      Standing document (written ++ (converter.stepAt line following).1)
        (converter.stepAt line following).2 (Statement.linesAfter line following)

namespace Standing

variable {document : Text} {written : List Chunk} {converter : Converter} {lines : List Line}

/-- From a standing on, the run of the lines that are left makes the rest of the page. -/
theorem run_eq (h : Standing document written converter lines) :
    Converter.start.run (Statement.ofDocument document)
      = (written ++ (converter.run (Statement.ofLines lines)).1,
          (converter.run (Statement.ofLines lines)).2) := by
  induction h with
  | start => rfl
  | next _ ih => rw [ih, Converter.run_ofLines_cons, List.append_assoc]

/-- The lines that are left are the end of the document. -/
theorem suffix (h : Standing document written converter lines) : lines <:+ Line.ofDocument document := by
  induction h with
  | start => exact List.suffix_rfl
  | next _ ih => exact (List.drop_suffix _ _).trans ((List.suffix_cons _ _).trans ih)

/-- The turns that are left at a standing are those of the lines that are left. -/
theorem exists_drop_eq (h : Standing document written converter lines) :
    ∃ place, (Turn.ofDocument document).drop place
      = Turn.list converter.filters.active (Statement.ofLines lines) := by
  induction h with
  | start => exact ⟨0, rfl⟩
  | @next _ converter line following _ ih =>
      obtain ⟨place, hplace⟩ := ih
      refine ⟨place + 1, ?_⟩
      have hturns : Turn.list converter.filters.active (Statement.ofLines (line :: following))
          = converter.turnAt line following :: Turn.list (converter.turnAt line following).filterAfter
            (Statement.ofLines (Statement.linesAfter line following)) := by
        rw [Statement.ofLines]
        rfl
      rw [← List.drop_drop, hplace, hturns, Converter.stepAt_eq]
      rfl

/-- Each statement that a conversion gets to is one of the turns of the document. -/
theorem exists_place {line : Line} {following : List Line}
    (h : Standing document written converter (line :: following)) :
    ∃ place : Nat, (Turn.ofDocument document)[place]? = some (converter.turnAt line following) := by
  obtain ⟨place, hplace⟩ := h.exists_drop_eq
  refine ⟨place, ?_⟩
  rw [← Nat.add_zero place, ← List.getElem?_drop, hplace, Statement.ofLines]
  rfl

theorem moves_and_sound (h : Standing document written converter lines) :
    Moves Converter.start written converter ∧ converter.Sound := by
  induction h with
  | start => exact ⟨.nil _, Converter.sound_start⟩
  | next _ ih =>
      obtain ⟨hmoves, hsound⟩ := ih
      have hstep := Converter.moves_step hsound
      exact ⟨hmoves.trans (hstep _ _), (hstep _ _).sound hsound⟩

end Standing

/--
At every standing of a conversion the open scopes get strictly deeper inwards, their closers are ends
of blocks or of elements that have an end tag, an open filter is deeper than all of them, and all that
were opened are open or closed. The conversion gets there by moves, and so to the end, where nothing is
open. While a filter is open, no move touches the scopes or opens a filter, and a step that does not
leave all as it is closes the filter first.
-/
theorem standing_sound (document : Text) :
    (∀ written converter lines, Standing document written converter lines →
        converter.Sound ∧ Moves Converter.start written converter
          ∧ Moves converter (converter.run (Statement.ofLines lines)).1
            (Converter.start.run (Statement.ofDocument document)).2
          ∧ ∀ line following filter, lines = line :: following →
            converter.filters.active = some filter →
              (converter.stepAt line following).2 = converter
                ∨ converter.stepAt line following
                  = (filter.closeLine :: (converter.withoutFilter.stepAt line following).1,
                      (converter.withoutFilter.stepAt line following).2))
      ∧ (∀ before chunks after filter, Move before chunks after →
          before.filters.active = some filter →
            after.scopes = before.scopes ∧ after.filters.opened = before.filters.opened)
      ∧ (Converter.start.run (Statement.ofDocument document)).2.scopes.frames = []
      ∧ (Converter.start.run (Statement.ofDocument document)).2.filters.active = none
      ∧ (convert document).stats.framesOpened = (convert document).stats.framesClosed := by
  have hrun := Converter.moves_run Converter.sound_start (Statement.ofDocument document)
  obtain ⟨hframes, hfilter⟩ := Converter.closed_run (Statement.ofDocument document) .start
  refine ⟨fun written converter lines h => ?_, fun before chunks after filter hmove hf => ?_,
    hframes, hfilter, ?_⟩
  · obtain ⟨hmoves, hsound⟩ := h.moves_and_sound
    refine ⟨hsound, hmoves, ?_, fun line following filter _ hf =>
      Converter.step_of_active hf _ _⟩
    rw [h.run_eq]
    exact Converter.moves_run hsound _
  · obtain ⟨hscopes, hopened, _⟩ := hmove.keeps_scopes hf
    exact ⟨hscopes, hopened⟩
  · have hcounted := (hrun.sound Converter.sound_start).counted
    rw [hframes] at hcounted
    exact hcounted

end Haml
