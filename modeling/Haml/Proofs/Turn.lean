import Haml.Conversion

/-!
# Turns

A turn is a statement in its place: with the filter that is open before it and the indent of what
comes next. The scopes that are open have no say in what a statement becomes. One step of a
conversion is described once, by `Converter.step_eq`; what a run writes and keeps follows from it.
-/

namespace Haml

/-- The line that closes a filter. -/
def OpenFilter.closeLine (filter : OpenFilter) : Chunk := .indented filter.indent filter.kind.closing

/-- A statement in its place in a document. -/
structure Turn where
  filter : Option OpenFilter
  statement : Statement
  /-- The indent of the next statement that is not blank. -/
  nextIndent : Nat
  deriving DecidableEq, Repr

namespace Turn

/-! ## What a statement is taken for -/

/-- Whether the open filter takes the statement: a blank one, or one deeper than the filter. -/
def isTaken (turn : Turn) : Bool :=
  turn.filter.any fun filter => turn.statement.isBlank || filter.indent < turn.statement.indent

/-- Whether the statement is rendered: it is not blank, and no filter takes it. -/
def isRendered (turn : Turn) : Bool := !turn.isTaken && !turn.statement.isBlank

/-- Whether lines are nested under the statement. -/
def hasChildren (turn : Turn) : Bool := turn.statement.indent < turn.nextIndent

def rendering (turn : Turn) : Rendering := turn.statement.render turn.hasChildren

/-! ## Scopes and filters -/

/-- The scope that the statement opens: one whose closer is owed, if lines are nested under it. -/
def opens? (turn : Turn) : Option Frame :=
  if turn.isRendered && turn.hasChildren then
    match turn.rendering with
    | .line _ (some closer) => some ⟨turn.statement.indent, closer⟩
    | _ => none
  else none

/--
Whether the statement ends the scopes that a line of the given indent opened: it is rendered and
less deep, or it is just as deep and does not go on with a block.
-/
def ends (turn : Turn) (indent : Nat) : Bool :=
  turn.isRendered && (turn.statement.indent < indent
    || turn.statement.indent = indent && !Code.isContinuation turn.statement.stripped)

def startsFilter (turn : Turn) : Bool :=
  turn.isRendered && match turn.rendering with
    | .filter _ => true
    | _ => false

def isVerbatim (turn : Turn) : Bool := turn.isRendered && turn.rendering = .verbatim

/-- The filter that is open after the statement. -/
def filterAfter (turn : Turn) : Option OpenFilter :=
  if turn.isTaken then turn.filter
  else match turn.rendering with
    | .filter kind => some ⟨kind, turn.statement.indent⟩
    | _ => none

/-! ## What is written -/

/-- The end of the open filter, if the filter does not take the statement. -/
def filterEnd (turn : Turn) : List Chunk :=
  if turn.isTaken then [] else turn.filter.toList.map OpenFilter.closeLine

/-- What is written for the statement itself. -/
def own (turn : Turn) : List Chunk :=
  if turn.isTaken then [.raw turn.statement.text, .raw ['\n']]
  else if turn.statement.isBlank then Converter.copyBlank turn.statement
  else match turn.rendering with
    | .line body _ => [.line turn.statement.indentation body]
    | .filter kind => [.indented turn.statement.indent kind.opening]
    | .verbatim => [.line turn.statement.indentation turn.statement.stripped]

/-- The standing after the statement. -/
def after (turn : Turn) (converter : Converter) : Converter where
  scopes :=
    { frames := turn.opens?.toList ++ converter.scopes.frames.dropWhile (turn.ends ·.indent)
      opened := converter.scopes.opened + turn.opens?.toList.length
      closed := converter.scopes.closed
        + (converter.scopes.frames.takeWhile (turn.ends ·.indent)).length }
  filters :=
    { active := turn.filterAfter
      opened := converter.filters.opened + turn.startsFilter.toNat }
  verbatim := converter.verbatim + turn.isVerbatim.toNat

/-! ## The turns of a document -/

/-- The turns of statements, the first of which comes while `filter` is open. -/
def list (filter : Option OpenFilter) : List Statement → List Turn
  | [] => []
  | statement :: following =>
    ⟨filter, statement, Statement.indentOfFirst following⟩
      :: list (filterAfter ⟨filter, statement, Statement.indentOfFirst following⟩) following

/-- The turns of a document. -/
def ofDocument (document : Text) : List Turn := list none (Statement.ofDocument document)

def filterAtEnd (filter : Option OpenFilter) : List Turn → Option OpenFilter
  | [] => filter
  | turn :: following => filterAtEnd turn.filterAfter following

/-! ## The three ways to take a statement -/

theorem ends_of_not_isRendered {turn : Turn} (h : turn.isRendered = false) (indent : Nat) :
    turn.ends indent = false := by
  simp [ends, h]

theorem opens?_of_not_isRendered {turn : Turn} (h : turn.isRendered = false) :
    turn.opens? = none := by
  simp [opens?, h]

/-- An open filter takes every blank statement. -/
theorem filter_eq_none_of_isBlank {turn : Turn} (ht : turn.isTaken = false)
    (hb : turn.statement.isBlank = true) : turn.filter = none := by
  cases hf : turn.filter with
  | none => rfl
  | some filter => simp [isTaken, hf, hb] at ht

theorem rendering_of_isBlank {turn : Turn} (h : turn.statement.isBlank = true) :
    turn.rendering = .line [] none := by
  have hs : turn.statement.stripped = [] := List.isEmpty_iff.mp h
  simp [rendering, Statement.render, hs, Rendering.ofContent, Kind.of]

theorem endsAt_eq_ends {turn : Turn} (h : turn.isRendered = true) (frame : Frame) :
    frame.endsAt turn.statement.indent (Code.isContinuation turn.statement.stripped)
      = turn.ends frame.indent := by
  cases hc : Code.isContinuation turn.statement.stripped with
  | false =>
      simp only [Frame.endsAt, ends, h, hc]
      grind
  | true => simp [Frame.endsAt, ends, h, hc]

end Turn

/-! ## One step -/

namespace Converter

variable {converter : Converter} {statement : Statement} {nextIndent : Nat}

/-- A statement that is not rendered leaves the standing as it is. -/
theorem after_of_not_isRendered {turn : Turn} (h : turn.isRendered = false)
    (hf : turn.filterAfter = converter.filters.active) : turn.after converter = converter := by
  have hends : ∀ indent, turn.ends indent = false := Turn.ends_of_not_isRendered h
  have hdrop : converter.scopes.frames.dropWhile (fun _ => false) = converter.scopes.frames := by
    cases converter.scopes.frames <;> rfl
  have htake : converter.scopes.frames.takeWhile (fun _ => false) = [] := by
    cases converter.scopes.frames <;> rfl
  simp [Turn.after, hends, hdrop, htake, hf, Turn.opens?_of_not_isRendered h, Turn.startsFilter,
    Turn.isVerbatim, h]

theorem step_of_isTaken {turn : Turn} (ht : turn = ⟨converter.filters.active, statement, nextIndent⟩)
    (h : turn.isTaken = true) : converter.step statement nextIndent = (turn.own, converter) := by
  subst ht
  have htakes : converter.filters.takes statement = true := h
  simp [step, Filters.absorb?, htakes, Turn.own, h]

theorem step_of_isBlank {turn : Turn} (ht : turn = ⟨converter.filters.active, statement, nextIndent⟩)
    (h : turn.isTaken = false) (hb : statement.isBlank = true) :
    converter.step statement nextIndent = (turn.own, converter) := by
  subst ht
  have htakes : converter.filters.takes statement = false := h
  have hf : converter.filters.active = none := Turn.filter_eq_none_of_isBlank h hb
  have hown : Turn.own ⟨converter.filters.active, statement, nextIndent⟩ = copyBlank statement := by
    simp only [Turn.own, h, hb]
    simp
  rw [hown]
  simp [step, Filters.absorb?, htakes, Filters.finish, hf, convert, hb]

/-- Writing a rendered statement writes its own line, and opens what it opens. -/
theorem write_eq {turn : Turn} (ht : turn = ⟨converter.filters.active, statement, nextIndent⟩)
    (h : turn.isRendered = true) (scopes : Scopes) :
    Converter.write ⟨scopes, ⟨none, converter.filters.opened⟩, converter.verbatim⟩ statement
        turn.hasChildren turn.rendering
      = (turn.own,
          { scopes :=
              { scopes with
                frames := turn.opens?.toList ++ scopes.frames
                opened := scopes.opened + turn.opens?.toList.length }
            filters := ⟨turn.filterAfter, converter.filters.opened + turn.startsFilter.toNat⟩
            verbatim := converter.verbatim + turn.isVerbatim.toNat }) := by
  have hs : statement = turn.statement := by rw [ht]
  obtain ⟨htaken, hblank⟩ : turn.isTaken = false ∧ turn.statement.isBlank = false := by
    simpa [Turn.isRendered] using h
  subst hs
  cases hr : turn.rendering with
  | line body closer =>
      cases closer with
      | none =>
          simp [write, Turn.own, Turn.opens?, Turn.startsFilter, Turn.isVerbatim,
            Turn.filterAfter, h, htaken, hblank, hr]
      | some closer =>
          cases hc : turn.hasChildren <;>
            simp [write, Turn.own, Turn.opens?, Turn.startsFilter, Turn.isVerbatim,
              Turn.filterAfter, Scopes.push, h, htaken, hblank, hr, hc]
  | filter kind =>
      simp [write, Filters.start, Turn.own, Turn.opens?, Turn.startsFilter, Turn.isVerbatim,
        Turn.filterAfter, h, htaken, hblank, hr]
  | verbatim =>
      simp [write, Turn.own, Turn.opens?, Turn.startsFilter, Turn.isVerbatim, Turn.filterAfter, h,
        htaken, hblank, hr]

theorem step_of_isRendered {turn : Turn}
    (ht : turn = ⟨converter.filters.active, statement, nextIndent⟩) (h : turn.isRendered = true) :
    converter.step statement nextIndent =
      (turn.filterEnd
          ++ (converter.scopes.frames.takeWhile (turn.ends ·.indent)).map Frame.closeLine
          ++ turn.own,
        turn.after converter) := by
  have hs : turn.statement = statement := by rw [ht]
  obtain ⟨htaken, hblank⟩ : turn.isTaken = false ∧ turn.statement.isBlank = false := by
    simpa [Turn.isRendered] using h
  have htakes : converter.filters.takes statement = false := by rw [ht] at htaken; exact htaken
  have hfinish : converter.filters.finish
      = (turn.filterEnd, ⟨none, converter.filters.opened⟩) := by
    rw [Turn.filterEnd, htaken, ht]
    cases hf : converter.filters.active <;> simp [Filters.finish, hf, OpenFilter.closeLine]
    rw [← hf]
  have hends : (fun frame : Frame =>
      frame.endsAt statement.indent (Code.isContinuation statement.stripped))
        = (turn.ends ·.indent) := by
    funext frame
    rw [← hs]
    exact Turn.endsAt_eq_ends h frame
  have hchildren : decide (statement.indent < nextIndent) = turn.hasChildren := by rw [ht]; rfl
  have hrender : statement.render turn.hasChildren = turn.rendering := by rw [ht]; rfl
  rw [hs] at hblank
  simp only [step, Filters.absorb?, htakes, hfinish, convert, hblank, Scopes.closeFor, hends,
    hchildren, hrender, write_eq ht h, Turn.after]
  simp

theorem step_eq {turn : Turn} (ht : turn = ⟨converter.filters.active, statement, nextIndent⟩) :
    converter.step statement nextIndent =
      (turn.filterEnd
          ++ (converter.scopes.frames.takeWhile (turn.ends ·.indent)).map Frame.closeLine
          ++ turn.own,
        turn.after converter) := by
  cases h : turn.isRendered with
  | true => exact step_of_isRendered ht h
  | false =>
      have hends : ∀ indent, turn.ends indent = false := Turn.ends_of_not_isRendered h
      have htake : converter.scopes.frames.takeWhile (fun _ => false) = [] := by
        cases converter.scopes.frames <;> rfl
      cases htaken : turn.isTaken with
      | true =>
          have hf : turn.filterAfter = converter.filters.active := by
            rw [Turn.filterAfter, if_pos htaken, ht]
          rw [step_of_isTaken ht htaken, after_of_not_isRendered h hf]
          simp [Turn.filterEnd, htaken, hends, htake]
      | false =>
          have hblank : turn.statement.isBlank = true := by simpa [Turn.isRendered, htaken] using h
          have hnone : turn.filter = none := Turn.filter_eq_none_of_isBlank htaken hblank
          have hf : turn.filterAfter = converter.filters.active := by
            rw [Turn.filterAfter, htaken, Turn.rendering_of_isBlank hblank]
            rw [ht] at hnone
            exact hnone.symm
          have hb : statement.isBlank = true := by rw [ht] at hblank; exact hblank
          rw [step_of_isBlank ht htaken hb, after_of_not_isRendered h hf]
          simp [Turn.filterEnd, htaken, hnone, hends, htake]

/-! ## The end of a run -/

variable (converter)

/-- What a run writes at the end: the end of the open filter, then the closers of all scopes. -/
theorem finish_fst :
    converter.finish.1 = converter.filters.active.toList.map OpenFilter.closeLine
      ++ converter.scopes.frames.map Frame.closeLine := by
  cases hf : converter.filters.active <;>
    simp [finish, Filters.finish, Scopes.finish, hf, OpenFilter.closeLine]

theorem finish_snd :
    converter.finish.2 =
      { scopes :=
          { frames := []
            opened := converter.scopes.opened
            closed := converter.scopes.closed + converter.scopes.frames.length }
        filters := ⟨none, converter.filters.opened⟩
        verbatim := converter.verbatim } := by
  have hfilters : converter.filters.finish.2 = ⟨none, converter.filters.opened⟩ := by
    cases hf : converter.filters.active <;> simp [Filters.finish, hf]
    rw [← hf]
  simp [finish, Scopes.finish, hfilters]

end Converter

end Haml
