import Haml.Proofs.Lines
import Haml.Proofs.Turn

/-!
# Documents one below the other

A line without indent that starts a statement of its own finds nothing of what is above it: every
fold stops before it, the open filter ends at it, and so do all scopes. Main statement: if such a line
starts the second of two documents, the conversion of both together is the two conversions put
together.
-/

namespace Haml

/-- The counts of two conversions together. -/
instance : Add Stats where
  add first second :=
    { lines := first.lines + second.lines
      statements := first.statements + second.statements
      framesOpened := first.framesOpened + second.framesOpened
      framesClosed := first.framesClosed + second.framesClosed
      filtersOpened := first.filtersOpened + second.filtersOpened
      verbatim := first.verbatim + second.verbatim }

/-! ## Counting on -/

namespace Converter

def counts (converter : Converter) : Stats :=
  { lines := 0
    statements := 0
    framesOpened := converter.scopes.opened
    framesClosed := converter.scopes.closed
    filtersOpened := converter.filters.opened
    verbatim := converter.verbatim }

/-- The standing that has already counted `stats`. -/
def plus (converter : Converter) (stats : Stats) : Converter where
  scopes :=
    { converter.scopes with
      opened := stats.framesOpened + converter.scopes.opened
      closed := stats.framesClosed + converter.scopes.closed }
  filters :=
    { converter.filters with opened := stats.filtersOpened + converter.filters.opened }
  verbatim := stats.verbatim + converter.verbatim

variable (converter : Converter) (stats : Stats)

theorem finish_plus :
    (converter.plus stats).finish = (converter.finish.1, converter.finish.2.plus stats) := by
  cases hf : converter.filters.active <;>
    simp [finish, plus, Filters.finish, Scopes.finish, hf, Nat.add_assoc]

theorem step_plus (statement : Statement) (nextIndent : Nat) :
    (converter.plus stats).step statement nextIndent
      = ((converter.step statement nextIndent).1,
          (converter.step statement nextIndent).2.plus stats) := by
  rw [step_eq rfl, step_eq rfl]
  simp [plus, Turn.after, Nat.add_assoc]

/-- What has been counted before a run has no influence on the page. -/
theorem run_plus (statements : List Statement) :
    (converter.plus stats).run statements
      = ((converter.run statements).1, (converter.run statements).2.plus stats) := by
  induction statements generalizing converter with
  | nil => exact finish_plus converter stats
  | cons statement following ih => simp only [run, step_plus, ih]

end Converter

/-! ## A statement that starts afresh -/

/-- A statement that ends whatever is open. -/
structure Statement.IsFresh (statement : Statement) : Prop where
  not_isBlank : statement.isBlank = false
  indent_eq : statement.indent = 0
  not_isContinuation : Code.isContinuation statement.stripped = false

variable {statement : Statement}

theorem Statement.indentOfFirst_append (h : statement.IsFresh) (above below : List Statement) :
    indentOfFirst (above ++ statement :: below) = indentOfFirst above := by
  unfold indentOfFirst
  rw [List.find?_append]
  cases above.find? (!·.isBlank) with
  | some _ => rfl
  | none => simp [h.not_isBlank, h.indent_eq]

namespace Converter

theorem step_of_isFresh (h : statement.IsFresh) (converter : Converter) (nextIndent : Nat) :
    converter.step statement nextIndent
      = (converter.finish.1 ++ (start.step statement nextIndent).1,
          (start.step statement nextIndent).2.plus converter.finish.2.counts) := by
  let turn : Turn := ⟨converter.filters.active, statement, nextIndent⟩
  let fresh : Turn := ⟨none, statement, nextIndent⟩
  have htaken : turn.isTaken = false := by
    simp [turn, Turn.isTaken, h.not_isBlank, h.indent_eq]
  have hrendered : turn.isRendered = true := by simp [Turn.isRendered, htaken, turn, h.not_isBlank]
  have hends : ∀ indent, turn.ends indent = true := by
    intro indent
    simp only [Turn.ends, hrendered, turn, h.indent_eq, h.not_isContinuation]
    grind
  have hfreshTaken : fresh.isTaken = false := rfl
  have hfreshRendered : fresh.isRendered = true := by
    simp [Turn.isRendered, hfreshTaken, fresh, h.not_isBlank]
  have hrendering : turn.rendering = fresh.rendering := rfl
  -- The filter that is open counts for nothing, since the statement ends it.
  have hown : turn.own = fresh.own := by simp [Turn.own, htaken, hfreshTaken, turn, fresh, hrendering]
  have hopens : turn.opens? = fresh.opens? := by
    simp [Turn.opens?, hrendered, hfreshRendered, hrendering]
    rfl
  have hstarts : turn.startsFilter = fresh.startsFilter := by
    simp [Turn.startsFilter, hrendered, hfreshRendered, hrendering]
  have hverbatim : turn.isVerbatim = fresh.isVerbatim := by
    simp [Turn.isVerbatim, hrendered, hfreshRendered, hrendering]
  have hafter : turn.filterAfter = fresh.filterAfter := by
    simp [Turn.filterAfter, htaken, hfreshTaken, hrendering, turn, fresh]
  have htake : converter.scopes.frames.takeWhile (turn.ends ·.indent) = converter.scopes.frames :=
    List.takeWhile_eq_self_iff.mpr fun frame _ => hends frame.indent
  have hdrop : converter.scopes.frames.dropWhile (turn.ends ·.indent) = [] :=
    List.dropWhile_eq_nil_iff.mpr fun frame _ => hends frame.indent
  have hend : turn.filterEnd = converter.filters.active.toList.map OpenFilter.closeLine := by
    simp [Turn.filterEnd, htaken, turn]
  have hfreshEnd : fresh.filterEnd = [] := rfl
  have hturn : turn = ⟨converter.filters.active, statement, nextIndent⟩ := rfl
  have hfresh : fresh = ⟨start.filters.active, statement, nextIndent⟩ := rfl
  rw [step_eq hturn, step_eq hfresh, finish_fst,
    finish_snd, htake, hend, hfreshEnd, hown]
  refine Prod.ext ?_ ?_
  · simp [start, Scopes.empty]
  · simp [Turn.after, htake, hdrop, hopens, hafter, hstarts, hverbatim, plus, counts, start,
      Scopes.empty, Filters.empty]

/-- A run past a fresh statement is the run up to it and the run from it on. -/
theorem run_append (h : statement.IsFresh) (above below : List Statement) (converter : Converter) :
    converter.run (above ++ statement :: below)
      = ((converter.run above).1 ++ (start.run (statement :: below)).1,
          (start.run (statement :: below)).2.plus (converter.run above).2.counts) := by
  induction above generalizing converter with
  | nil =>
      simp only [List.nil_append, run, step_of_isFresh h converter, run_plus]
      simp
  | cons first following ih =>
      simp only [List.cons_append, run, Statement.indentOfFirst_append h, ih]
      simp

end Converter

/-! ## Documents -/

/-- The statement that a line without indent starts, unless the line goes on with a block. -/
theorem Statement.isFresh_first {line : Line} (h : IsBase line)
    (hc : Code.isContinuation line.stripped = false) (following : List Line) :
    (first line following).IsFresh where
  not_isBlank := isBlank_first following h.not_isBlank
  indent_eq := (indent_first following h.not_isBlank).trans h.indent_eq
  not_isContinuation := (isContinuation_first following h.not_isBlank).trans hc

/--
Two documents, of which the first is empty or ends with a newline, and the second starts with a line
that has content and no indent, goes on with no block and is not a lone closing brace: the conversion
of both together gives the two pages one after the other, and the sum of the counts.
-/
theorem convert_append {above below : Text} {line : Line}
    (habove : above = [] ∨ above.getLast? = some '\n')
    (hline : (Line.ofDocument below).head? = some line) (hblank : line.isBlank = false)
    (hindent : line.indent = 0) (hcontinuation : Code.isContinuation line.stripped = false)
    (hbrace : line.stripped ≠ ['}']) :
    convert (above ++ below)
      = { page := (convert above).page ++ (convert below).page
          stats := (convert above).stats + (convert below).stats } := by
  have hbase : Statement.IsBase line := ⟨hblank, hindent, hbrace⟩
  obtain ⟨following, hbelow⟩ := List.head?_eq_some_iff.mp hline
  have hfresh := Statement.isFresh_first hbase hcontinuation following
  have hstatements : Statement.ofDocument (above ++ below)
      = Statement.ofDocument above ++ Statement.ofDocument below := by
    rw [Statement.ofDocument, Line.ofDocument_append habove, hbelow, Statement.ofLines_append hbase,
      Statement.ofDocument, Statement.ofDocument, hbelow]
  obtain ⟨rest, hrest⟩ : ∃ rest, Statement.ofDocument below
      = Statement.first line following :: rest := by
    rw [Statement.ofDocument, hbelow, Statement.ofLines]
    exact ⟨_, rfl⟩
  have hrun := Converter.run_append hfresh (Statement.ofDocument above) rest .start
  rw [← hrest] at hrun
  simp only [convert, hstatements, hrun, Line.ofDocument_append habove, Chunk.concat,
    List.flatMap_append, List.length_append]
  rfl

/-- An open element, a continued output, a block of code and an open filter above, an element below. -/
theorem convert_append_element :
    let above := "%ul\n  = f a,\n      b\n  - if c\n    %li\n:ruby\n  x = 1\n".toList
    let page := "<ul>\n  <%= f a, b %>\n  <% if c %>\n    <li></li>\n  <% end %>\n</ul>\n".toList
      ++ "<%\n  x = 1\n%>\n".toList
    let below := "%p= x\n".toList
    convert above = ⟨page, ⟨7, 6, 2, 2, 1, 0⟩⟩
      ∧ convert below = ⟨"<p><%= x %></p>\n".toList, ⟨1, 1, 0, 0, 0, 0⟩⟩
      ∧ convert (above ++ below) = ⟨page ++ "<p><%= x %></p>\n".toList, ⟨8, 7, 2, 2, 1, 0⟩⟩ := by
  intro above page below
  have habove : convert above = ⟨page, ⟨7, 6, 2, 2, 1, 0⟩⟩ := by decide +kernel
  have hbelow : convert below = ⟨"<p><%= x %></p>\n".toList, ⟨1, 1, 0, 0, 0, 0⟩⟩ := by decide +kernel
  have hline : (Line.ofDocument below).head? = some ⟨"%p= x".toList, true⟩ := by decide
  have happend := @convert_append above below _ (by decide) hline (by decide) (by decide) (by decide) (by decide)
  rw [habove, hbelow] at happend
  exact ⟨habove, hbelow, happend⟩

end Haml
