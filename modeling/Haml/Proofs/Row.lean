import Haml.Proofs.Extent
import Haml.Proofs.Indent
import Haml.Proofs.Standing

/-!
# Rows of a page

A page is written row by row. Each statement makes one row, each closed scope one, and each filter one
more at its end, and no row holds a newline but the one that ends it. Main statement: the rows of a page
are counted by what the conversion counts.
-/

namespace Haml

/-! ## Texts that make rows -/

/-- What stands on a line of the page behind the indentation. -/
structure Text.IsBody (body : Text) : Prop where
  newline_notMem : '\n' ∉ body
  head : ∃ c ∈ body.head?, Text.isBlank c = false

/-- A text that is one line with its newline. -/
def Text.IsRow (s : Text) : Prop := ∃ body, '\n' ∉ body ∧ s = body ++ ['\n']

theorem Text.newline_notMem_spaces_append {body : Text} (h : '\n' ∉ body) (n : Nat) :
    '\n' ∉ spaces n ++ body := by
  intro hmem
  rcases List.mem_append.mp hmem with hspace | hbody
  · cases List.eq_of_mem_replicate hspace
  · exact h hbody

theorem IsCloser.isBody {closer : Text} (h : IsCloser closer) : closer.IsBody := by
  cases h with
  | block => exact ⟨by decide, '<', rfl, by decide⟩
  | element hname _ => exact ⟨by simp [Html.endTag, hname.newline_notMem], '<', rfl, by decide⟩
  | blockInElement hname _ =>
      have hmarker : '\n' ∉ Erb.endMarker := by decide
      exact ⟨by simp [Html.endTag, hname.newline_notMem, hmarker], '<', rfl, by decide⟩

theorem FilterKind.isBody (kind : FilterKind) : kind.opening.IsBody ∧ kind.closing.IsBody := by
  cases kind
  exact ⟨⟨by decide, '<', rfl, by decide⟩, by decide, '%', rfl, by decide⟩

namespace Statement

variable {statement : Statement}

theorem trim_ne_nil (h : statement.isBlank = false) : Text.trim statement.text ≠ [] :=
  List.isEmpty_eq_false_iff.mp h

theorem isBody (h : '\n' ∉ statement.text) (hb : statement.isBlank = false) :
    statement.stripped.IsBody ∧ ∀ hasChildren body closer,
      statement.render hasChildren = .line body closer → body.IsBody := by
  have hnewline : '\n' ∉ statement.stripped := Text.newline_notMem_trim h
  obtain ⟨blanks, c, tail, hblanks, hc, htext⟩ := Text.exists_blanks (trim_ne_nil hb)
  have hhead : statement.stripped.head? = some c := by
    rw [stripped, htext, Text.trim_append_cons hblanks hc]
    rfl
  exact ⟨⟨hnewline, c, hhead, hc⟩, fun _ _ _ hline =>
    ⟨Rendering.newline_notMem_body hnewline hline, Rendering.head_body hhead hc hline⟩⟩

end Statement

/-! ## Chunks that make rows -/

namespace Chunk

/-- Chunks that make a number of whole rows. -/
structure MakeRows (chunks : List Chunk) (n : Nat) : Prop where
  count : (concat chunks).count '\n' = n
  ends : concat chunks = [] ∨ (concat chunks).getLast? = some '\n'

variable {chunks more : List Chunk} {m n : Nat}

theorem concat_append (chunks more : List Chunk) :
    concat (chunks ++ more) = concat chunks ++ concat more :=
  List.flatMap_append

theorem isRow_line {indentation body : Text} (hindentation : '\n' ∉ indentation) (h : '\n' ∉ body) :
    (concat [.line indentation body]).IsRow :=
  ⟨indentation ++ body, by simp [hindentation, h], by simp [concat, Chunk.text]⟩

theorem isRow_indented {body : Text} (h : '\n' ∉ body) (width : Nat) :
    (concat [.indented width body]).IsRow :=
  ⟨Text.spaces width ++ body, Text.newline_notMem_spaces_append h width,
    by simp [concat, Chunk.text]⟩

theorem isRow_raw {text : Text} (h : '\n' ∉ text) : (concat [.raw text, .raw ['\n']]).IsRow :=
  ⟨text, h, by simp [concat, Chunk.text]⟩

namespace MakeRows

theorem nil : MakeRows [] 0 := ⟨rfl, .inl rfl⟩

theorem of_isRow (h : (concat chunks).IsRow) : MakeRows chunks 1 := by
  obtain ⟨body, hbody, htext⟩ := h
  exact ⟨by simp [htext, List.count_append, List.count_eq_zero_of_not_mem hbody], .inr (by simp [htext])⟩

theorem append (h : MakeRows chunks m) (h' : MakeRows more n) : MakeRows (chunks ++ more) (m + n) := by
  refine ⟨by rw [concat_append, List.count_append, h.count, h'.count], ?_⟩
  rw [concat_append]
  rcases h'.ends with hnil | hlast
  · rw [hnil, List.append_nil]
    exact h.ends
  · exact .inr (by simp [List.getLast?_append, hlast])

theorem map {α : Type} {chunk : α → Chunk} {items : List α}
    (h : ∀ item ∈ items, (concat [chunk item]).IsRow) : MakeRows (items.map chunk) items.length := by
  induction items with
  | nil => exact nil
  | cons item rest ih =>
      obtain ⟨hitem, hrest⟩ := List.forall_mem_cons.mp h
      have hrows := (of_isRow hitem).append (ih hrest)
      rwa [Nat.add_comm] at hrows

end MakeRows

end Chunk

theorem Frame.isRow_closeLine {frame : Frame} (h : IsCloser frame.closer) :
    (Chunk.concat [frame.closeLine]).IsRow :=
  Chunk.isRow_indented h.isBody.newline_notMem _

theorem OpenFilter.isRow_closeLine (filter : OpenFilter) :
    (Chunk.concat [filter.closeLine]).IsRow :=
  Chunk.isRow_indented filter.kind.isBody.2.newline_notMem _

/-! ## Turns -/

namespace Turn

variable {turn : Turn}

theorem isRow_own (hnewline : '\n' ∉ turn.statement.text)
    (hterminated : turn.statement.isBlank = true → turn.statement.terminated = true) :
    (Chunk.concat turn.own).IsRow := by
  unfold own
  split
  · exact Chunk.isRow_raw hnewline
  · split
    · rename_i hb
      rw [Converter.copyBlank, hterminated hb]
      exact Chunk.isRow_raw hnewline
    · rename_i hb
      have hblank : turn.statement.isBlank = false := by simpa using hb
      obtain ⟨hstripped, hrender⟩ := Statement.isBody hnewline hblank
      have hindentation : '\n' ∉ turn.statement.indentation :=
        fun hmem => hnewline ((List.takeWhile_prefix _).mem hmem)
      split
      · rename_i body closer hline
        exact Chunk.isRow_line hindentation (hrender _ _ _ hline).newline_notMem
      · rename_i kind _
        exact Chunk.isRow_indented kind.isBody.1.newline_notMem _
      · exact Chunk.isRow_line hindentation hstripped.newline_notMem

/-- A filter that is open before a statement or started by it is ended by it or open after it. -/
theorem filters_balance (turn : Turn) :
    turn.filterEnd.length + turn.filterAfter.toList.length
      = turn.filter.toList.length + turn.startsFilter.toNat := by
  cases htaken : turn.isTaken with
  | true => simp [filterEnd, filterAfter, startsFilter, isRendered, htaken]
  | false =>
      cases hblank : turn.statement.isBlank with
      | true =>
          simp [filterEnd, filterAfter, startsFilter, isRendered, htaken, hblank,
            rendering_of_isBlank hblank]
      | false =>
          cases hr : turn.rendering <;>
            simp [filterEnd, filterAfter, startsFilter, isRendered, htaken, hblank, hr]

/-- A filter is open after a statement only if it was open before or the statement starts it. -/
theorem filterAfter_eq_none (hfilter : turn.filter = none)
    (h : turn.startsFilter = false) : turn.filterAfter = none := by
  have hbalance := turn.filters_balance
  rw [hfilter, h] at hbalance
  cases hafter : turn.filterAfter with
  | none => rfl
  | some filter => simp [hafter] at hbalance

theorem statement_mem_of_mem_list {statements : List Statement} {filter : Option OpenFilter}
    (h : turn ∈ list filter statements) : turn.statement ∈ statements := by
  induction statements generalizing filter with
  | nil => cases h
  | cons statement following ih =>
      rcases List.mem_cons.mp h with rfl | h
      · exact List.mem_cons_self
      · exact List.mem_cons_of_mem _ (ih h)

/-- Every filter that is started is ended once, by a statement or by the end of the page. -/
theorem length_filterEnds (filter : Option OpenFilter) (statements : List Statement) :
    ((list filter statements).flatMap filterEnd).length
        + (filterAtEnd filter (list filter statements)).toList.length
      = filter.toList.length + ((list filter statements).filter startsFilter).length := by
  induction statements generalizing filter with
  | nil => simp [list, filterAtEnd]
  | cons statement following ih =>
      have hturn := filters_balance ⟨filter, statement, Statement.indentOfFirst following⟩
      have hrest := ih (filterAfter ⟨filter, statement, Statement.indentOfFirst following⟩)
      simp only [list, List.flatMap_cons, List.length_append, filterAtEnd, List.filter_cons]
      cases hstarts : startsFilter ⟨filter, statement, Statement.indentOfFirst following⟩ <;>
        simp only [hstarts, Bool.toNat_true, Bool.toNat_false, Bool.false_eq_true, if_true, if_false,
          List.length_cons] at hturn ⊢ <;>
        omega

end Turn

/-! ## Runs -/

namespace Converter

variable {converter : Converter} {statements : List Statement}

theorem filtersOpened_run (statements : List Statement) (converter : Converter) :
    (converter.run statements).2.filters.opened = converter.filters.opened
      + ((Turn.list converter.filters.active statements).filter Turn.startsFilter).length := by
  induction statements generalizing converter with
  | nil => simp [run, finish_snd, Turn.list]
  | cons statement following ih =>
      simp only [run, step_eq rfl, ih, Turn.after, Turn.list, List.filter_cons]
      split <;> rename_i hstarts
      · simp [hstarts]
        omega
      · simp [hstarts]

theorem makeRows_finish (hs : converter.Sound) :
    Chunk.MakeRows converter.finish.1
      (converter.filters.active.toList.length + converter.scopes.frames.length) := by
  rw [finish_fst]
  exact .append (.map fun filter _ => filter.isRow_closeLine)
    (.map fun frame hframe => Frame.isRow_closeLine (hs.closers frame hframe))

theorem makeRows_step (hs : converter.Sound) {statement : Statement}
    (hnewline : '\n' ∉ statement.text)
    (hterminated : statement.isBlank = true → statement.terminated = true) {turn : Turn}
    (hturn : turn = ⟨converter.filters.active, statement, turn.nextIndent⟩) :
    Chunk.MakeRows (converter.step statement turn.nextIndent).1
      (turn.filterEnd.length + (converter.scopes.frames.takeWhile (turn.ends ·.indent)).length + 1) := by
  have hstatement : statement = turn.statement := by rw [hturn]
  rw [step_eq hturn]
  refine .append (.append ?_ (.map fun frame hframe => ?_)) (.of_isRow ?_)
  · unfold Turn.filterEnd
    split
    · exact .nil
    · rw [List.length_map]
      exact .map fun filter _ => filter.isRow_closeLine
  · exact Frame.isRow_closeLine (hs.closers frame ((List.takeWhile_prefix _).mem hframe))
  · exact Turn.isRow_own (hstatement ▸ hnewline) (hstatement ▸ hterminated)

/--
The rows of a run: one for each statement, and one for each scope that is closed and for each filter that
is open at first or opened in the run.
-/
theorem makeRows_run (hs : converter.Sound) (hnewline : ∀ statement ∈ statements, '\n' ∉ statement.text)
    (hterminated : ∀ statement ∈ statements, statement.isBlank = true → statement.terminated = true) :
    ∃ n, Chunk.MakeRows (converter.run statements).1 n
      ∧ n + converter.scopes.closed + converter.filters.opened
        = statements.length + (converter.run statements).2.scopes.closed
          + (converter.run statements).2.filters.opened + converter.filters.active.toList.length := by
  induction statements generalizing converter with
  | nil =>
      refine ⟨_, makeRows_finish hs, ?_⟩
      simp only [run, finish_snd, List.length_nil]
      omega
  | cons statement following ih =>
      obtain ⟨hnewline, hnewlines⟩ := List.forall_mem_cons.mp hnewline
      obtain ⟨hterminated, hterminateds⟩ := List.forall_mem_cons.mp hterminated
      let turn : Turn := ⟨converter.filters.active, statement, Statement.indentOfFirst following⟩
      have hturn : turn = ⟨converter.filters.active, statement, turn.nextIndent⟩ := rfl
      have hstep := makeRows_step hs hnewline hterminated hturn
      have hsound := (moves_step hs statement turn.nextIndent).sound hs
      obtain ⟨n, hrows, hcount⟩ := ih hsound hnewlines hterminateds
      refine ⟨_, hstep.append hrows, ?_⟩
      have hbalance := turn.filters_balance
      have hafter : (converter.step statement turn.nextIndent).2 = turn.after converter := by
        rw [step_eq hturn]
      rw [hafter] at hcount
      have hrun : (converter.run (statement :: following)).2
          = ((turn.after converter).run following).2 := by
        rw [← hafter]
        rfl
      rw [hrun]
      simp only [Turn.after, List.length_cons] at hcount ⊢
      simp only [turn] at hbalance hcount ⊢
      omega

end Converter

/-! ## Pages -/

theorem Turn.isRow_closeLine_of_mem {turns : List Turn} {extent : Extent} (h : extent ∈ extents turns) :
    (Chunk.concat [extent.frame.closeLine]).IsRow := by
  obtain ⟨_, _, hframe⟩ := (mem_extents_iff.mp h).opens
  exact Frame.isRow_closeLine (isCloser_of_opens? hframe)

/--
In a document that does not end within a blank line, every statement makes one row of the page, every
scope one for its closer, and every filter one for its end; so the newlines of the page are counted by the
statements, the scopes and the filters. The page is empty or ends with a newline, as many scopes are closed
as are opened, and the statements span the lines of the document.
-/
theorem count_newline_page {document : Text}
    (h : document = [] ∨ document.getLast? = some '\n'
      ∨ ∃ line ∈ (Line.ofDocument document).getLast?, line.isBlank = false) :
    let result := convert document
    let turns := Turn.ofDocument document
    result.page.count '\n'
        = result.stats.statements + result.stats.framesClosed + result.stats.filtersOpened
      ∧ (result.page = [] ∨ result.page.getLast? = some '\n')
      ∧ result.stats.framesOpened = result.stats.framesClosed
      ∧ result.stats.lines = ((Statement.ofDocument document).map Statement.span).sum
      ∧ result.page = Chunk.concat (Turn.page turns)
      ∧ (∀ turn ∈ turns, (Chunk.concat turn.own).IsRow)
      ∧ (∀ extent ∈ Turn.extents turns, (Chunk.concat [extent.frame.closeLine]).IsRow)
      ∧ (∀ filter : OpenFilter, (Chunk.concat [filter.closeLine]).IsRow)
      ∧ (turns.flatMap Turn.filterEnd).length + (Turn.filterAtEnd none turns).toList.length
        = result.stats.filtersOpened := by
  have hlast : ∀ line ∈ (Line.ofDocument document).getLast?, line.isBlank = true →
      line.terminated = true := by
    intro line hline hblank
    rcases h with rfl | hend | ⟨found, hfound, hcontent⟩
    · cases hline
    · exact Line.terminated_of_getLast? hend line (List.mem_of_getLast? hline)
    · obtain rfl := Option.mem_unique hline hfound
      rw [hblank] at hcontent
      cases hcontent
  have hnewline : ∀ statement ∈ Statement.ofDocument document, '\n' ∉ statement.text :=
    Statement.newline_notMem_text
  have hterminated := Statement.terminated_of_isBlank hlast
  have hpage := Converter.run_start_fst document
  have hscopes := Converter.run_start_scopes document
  have hfilters := Converter.filtersOpened_run (Statement.ofDocument document) .start
  obtain ⟨n, hrows, hcount⟩ := Converter.makeRows_run Converter.sound_start hnewline hterminated
  refine ⟨?_, hrows.ends, ?_, (Statement.sum_span_ofLines _).symm, congrArg Chunk.concat hpage,
    fun turn hturn => ?_, fun _ => Turn.isRow_closeLine_of_mem, OpenFilter.isRow_closeLine, ?_⟩
  · exact hrows.count.trans hcount
  · exact (congrArg Scopes.opened hscopes).trans (congrArg Scopes.closed hscopes).symm
  · have hmem := Turn.statement_mem_of_mem_list hturn
    exact Turn.isRow_own (hnewline _ hmem) (hterminated _ hmem)
  · have hends := Turn.length_filterEnds none (Statement.ofDocument document)
    exact hends.trans hfilters.symm

/-- A scope around a filter, whose line has no newline. -/
theorem count_newline_page_filter :
    (convert "- if x\n\n  :ruby\n    a = 1\n\n  %p= b".toList).page.count '\n' = 8
      ∧ (convert "- if x\n\n  :ruby\n    a = 1\n\n  %p= b".toList).stats.lines = 6 := by
  have h : "- if x\n\n  :ruby\n    a = 1\n\n  %p= b".toList = []
      ∨ "- if x\n\n  :ruby\n    a = 1\n\n  %p= b".toList.getLast? = some '\n'
      ∨ ∃ line ∈ (Line.ofDocument "- if x\n\n  :ruby\n    a = 1\n\n  %p= b".toList).getLast?,
          line.isBlank = false :=
    .inr (.inr ⟨⟨"  %p= b".toList, false⟩, by decide, by decide⟩)
  obtain ⟨hcount, _, _, hlines, _⟩ := count_newline_page h
  exact ⟨hcount.trans (by decide +kernel), hlines.trans (by decide +kernel)⟩

end Haml
