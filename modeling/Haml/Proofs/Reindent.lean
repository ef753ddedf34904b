import Haml.Proofs.Row

/-!
# Pages with other indents

A conversion compares indents and copies them, and does nothing else with them. Main statement: if the
leading spaces of all lines of a document are changed by a strictly increasing function, the leading
spaces of all lines of its page change by the same function, and nothing else changes.
-/

namespace Haml

variable {f : Nat → Nat}

/-! ## Statements -/

namespace Statement

/-- A statement of a document whose lines are indented with spaces and end with newlines if blank. -/
structure IsRegular (statement : Statement) : Prop where
  newline_notMem : '\n' ∉ statement.text
  spaced : statement.isBlank = false → '\t' ∉ statement.indentation
  terminated : statement.isBlank = true → statement.terminated = true

variable {statement : Statement} {following : List Statement}

theorem indentation_reindent (h : statement.IsRegular) (hb : statement.isBlank = false) :
    (statement.reindent f).indentation = Text.spaces (f statement.indent) :=
  Text.indentation_reindent (trim_ne_nil hb) (h.spaced hb)

theorem indent_reindent (h : statement.IsRegular) (hb : statement.isBlank = false) :
    (statement.reindent f).indent = f statement.indent :=
  Text.indent_reindent (trim_ne_nil hb) (h.spaced hb)

/-- What comes next is deeper if and only if it is deeper after reindenting. -/
theorem lt_indentOfFirst_reindent (hf : StrictMono f) (h : ∀ next ∈ following, next.IsRegular)
    (indent : Nat) :
    f indent < indentOfFirst (following.map (reindent f)) ↔ indent < indentOfFirst following := by
  have hfind : (following.map (reindent f)).find? (!·.isBlank)
      = (following.find? (!·.isBlank)).map (reindent f) :=
    find?_map_of_invariant (fun next : Statement => congrArg (!·) next.isBlank_reindent) following
  unfold indentOfFirst
  rw [hfind]
  cases hfirst : following.find? (!·.isBlank) with
  | none => simp
  | some first =>
      have hb : first.isBlank = false := by simpa using List.find?_some hfirst
      simp only [Option.map_some, indent_reindent (h first (List.mem_of_find?_eq_some hfirst)) hb]
      exact hf.lt_iff_lt

theorem isRegular_of_mem {document : Text} (hspaced : ∀ line ∈ Line.ofDocument document, line.IsSpaced)
    (hlast : ∀ line ∈ (Line.ofDocument document).getLast?, line.isBlank = true →
      line.terminated = true) :
    ∀ statement ∈ ofDocument document, statement.IsRegular := by
  intro statement hmem
  refine ⟨newline_notMem_text statement hmem, ?_, terminated_of_isBlank hlast statement hmem⟩
  revert statement
  refine forall_mem_ofLines fun above line following heq hb => ?_
  have hline : line ∈ Line.ofDocument document := by simp [heq]
  cases hblank : line.isBlank with
  | true =>
      rw [first_of_isBlank following hblank] at hb ⊢
      exact hspaced line hline hb
  | false =>
      rw [indentation_first following hblank]
      exact hspaced line hline hblank

end Statement

/-! ## Runs -/

def Frame.reindent (f : Nat → Nat) (frame : Frame) : Frame := { frame with indent := f frame.indent }

def OpenFilter.reindent (f : Nat → Nat) (filter : OpenFilter) : OpenFilter :=
  { filter with indent := f filter.indent }

def Scopes.reindent (f : Nat → Nat) (scopes : Scopes) : Scopes :=
  { scopes with frames := scopes.frames.map (Frame.reindent f) }

def Filters.reindent (f : Nat → Nat) (filters : Filters) : Filters :=
  { filters with active := filters.active.map (OpenFilter.reindent f) }

/-- The chunk with the width of its indentation changed by `f`. -/
def Chunk.reindent (f : Nat → Nat) : Chunk → Chunk
  | .line indentation body => .line (Text.spaces (f indentation.length)) body
  | .indented width body => .indented (f width) body
  | .raw text => .raw (Text.reindent f text)

namespace Scopes

theorem closeFor_reindent (hf : StrictMono f) (scopes : Scopes) (indent : Nat) (continuation : Bool) :
    (scopes.reindent f).closeFor (f indent) continuation
      = ((scopes.closeFor indent continuation).1.map (Chunk.reindent f),
          (scopes.closeFor indent continuation).2.reindent f) := by
  have hends : (fun frame : Frame => frame.endsAt (f indent) continuation) ∘ Frame.reindent f
      = (·.endsAt indent continuation) := by
    funext frame
    simp only [Function.comp_apply, Frame.endsAt, Frame.reindent, hf.le_iff_le, hf.lt_iff_lt]
  simp only [closeFor, reindent, List.takeWhile_map, List.dropWhile_map, hends, List.map_map,
    List.length_map]
  rfl

theorem finish_reindent (scopes : Scopes) :
    (scopes.reindent f).finish
      = (scopes.finish.1.map (Chunk.reindent f), scopes.finish.2.reindent f) := by
  simp only [finish, reindent, List.map_map, List.length_map, List.map_nil]
  rfl

end Scopes

namespace Filters

theorem finish_reindent (filters : Filters) :
    (filters.reindent f).finish
      = (filters.finish.1.map (Chunk.reindent f), filters.finish.2.reindent f) := by
  cases hactive : filters.active <;>
    simp [finish, reindent, hactive, OpenFilter.reindent, Chunk.reindent]

theorem absorb?_reindent (hf : StrictMono f) (filters : Filters) {statement : Statement}
    (h : statement.IsRegular) :
    (filters.reindent f).absorb? (statement.reindent f)
      = (filters.absorb? statement).map (List.map (Chunk.reindent f)) := by
  have htakes : (filters.reindent f).takes (statement.reindent f) = filters.takes statement := by
    cases hactive : filters.active with
    | none => simp [takes, reindent, hactive]
    | some filter =>
        cases hb : statement.isBlank with
        | true => simp [takes, reindent, hactive, hb]
        | false =>
            simp [takes, reindent, hactive, hb, OpenFilter.reindent, Statement.indent_reindent h hb,
              hf.lt_iff_lt]
  rw [absorb?, absorb?, htakes]
  split <;> rfl

end Filters

namespace Converter

def reindent (f : Nat → Nat) (converter : Converter) : Converter :=
  { converter with scopes := converter.scopes.reindent f, filters := converter.filters.reindent f }

variable {statement : Statement} {nextIndent nextIndent' : Nat}

theorem copyBlank_reindent (statement : Statement) :
    copyBlank (statement.reindent f) = (copyBlank statement).map (Chunk.reindent f) := by
  unfold copyBlank
  split <;> simp_all [Chunk.reindent, Statement.reindent]
  rfl

theorem write_reindent (h : statement.IsRegular) (hb : statement.isBlank = false)
    (converter : Converter) (hasChildren : Bool) (rendering : Rendering) :
    (converter.reindent f).write (statement.reindent f) hasChildren rendering
      = ((converter.write statement hasChildren rendering).1.map (Chunk.reindent f),
          (converter.write statement hasChildren rendering).2.reindent f) := by
  have hline : ∀ body, Chunk.line (statement.reindent f).indentation body
      = Chunk.reindent f (.line statement.indentation body) := by
    intro body
    rw [Statement.indentation_reindent h hb]
    rfl
  cases rendering with
  | line body closer =>
      cases closer with
      | none => simp [write, hline]
      | some closer =>
          cases hasChildren with
          | false => simp [write, hline]
          | true =>
              simp [write, hline, reindent, Scopes.push, Scopes.reindent, Frame.reindent,
                Statement.indent_reindent h hb]
  | filter kind =>
      simp [write, Filters.start, Statement.indent_reindent h hb, Chunk.reindent, reindent,
        Filters.reindent, OpenFilter.reindent]
  | verbatim => simp [write, hline, reindent]

/-- One step on a reindented statement, if the nesting of what comes next stays. -/
theorem step_reindent (hf : StrictMono f) (h : statement.IsRegular)
    (hnext : f statement.indent < nextIndent' ↔ statement.indent < nextIndent)
    (converter : Converter) :
    (converter.reindent f).step (statement.reindent f) nextIndent'
      = ((converter.step statement nextIndent).1.map (Chunk.reindent f),
          (converter.step statement nextIndent).2.reindent f) := by
  have habsorb := Filters.absorb?_reindent hf converter.filters h
  have hfinish := Filters.finish_reindent (f := f) converter.filters
  cases ha : converter.filters.absorb? statement with
  | some copied =>
      rw [ha] at habsorb
      simp [step, reindent, ha, habsorb]
  | none =>
      rw [ha] at habsorb
      cases hb : statement.isBlank with
      | true =>
          simp [step, convert, reindent, ha, habsorb, hfinish, hb, copyBlank_reindent]
      | false =>
          -- Content is rendered from its text and from whether anything is nested, both unchanged.
          have hclose := Scopes.closeFor_reindent hf converter.scopes statement.indent
            (Code.isContinuation statement.stripped)
          have hindent := Statement.indent_reindent (f := f) h hb
          have hrender : ∀ hasChildren,
              (statement.reindent f).render hasChildren = statement.render hasChildren := by
            intro hasChildren
            rw [Statement.render, Statement.render, Statement.stripped_reindent]
          have hwrite := write_reindent (f := f) h hb
            ⟨(converter.scopes.closeFor statement.indent
                (Code.isContinuation statement.stripped)).2, converter.filters.finish.2,
              converter.verbatim⟩
          simp only [reindent] at hwrite
          simp [step, convert, reindent, ha, habsorb, hfinish, hb, hindent, hclose, hnext, hrender,
            hwrite]

theorem run_reindent (hf : StrictMono f) {statements : List Statement}
    (h : ∀ statement ∈ statements, statement.IsRegular) (converter : Converter) :
    (converter.reindent f).run (statements.map (Statement.reindent f))
      = ((converter.run statements).1.map (Chunk.reindent f),
          (converter.run statements).2.reindent f) := by
  induction statements generalizing converter with
  | nil =>
      simp [run, finish, reindent, Filters.finish_reindent, Scopes.finish_reindent]
  | cons statement following ih =>
      obtain ⟨hstatement, hfollowing⟩ := List.forall_mem_cons.mp h
      have hnext := Statement.lt_indentOfFirst_reindent hf hfollowing statement.indent
      simp only [List.map_cons, run, step_reindent hf hstatement hnext, ih hfollowing,
        List.map_append]

end Converter

/-! ## Pages -/

namespace Chunk

/-- Chunks that make up whole lines, and that are reindented line by line. -/
structure AreLines (f : Nat → Nat) (chunks : List Chunk) : Prop where
  ends : concat chunks = [] ∨ (concat chunks).getLast? = some '\n'
  concat_reindent : concat (chunks.map (reindent f)) = Text.reindentLines f (concat chunks)

variable {chunks more : List Chunk} {text body : Text}

namespace AreLines

theorem nil : AreLines f [] := ⟨.inl rfl, rfl⟩

theorem append (h : AreLines f chunks) (h' : AreLines f more) : AreLines f (chunks ++ more) := by
  refine ⟨?_, ?_⟩
  · rw [concat_append]
    rcases h'.ends with hnil | hlast
    · rw [hnil, List.append_nil]
      exact h.ends
    · exact .inr (by simp [List.getLast?_append, hlast])
  · rw [List.map_append, concat_append, concat_append, Text.reindentLines_append h.ends,
      h.concat_reindent, h'.concat_reindent]

theorem map {α : Type} {chunk : α → Chunk} {items : List α} (h : ∀ item ∈ items, AreLines f [chunk item]) :
    AreLines f (items.map chunk) := by
  induction items with
  | nil => exact nil
  | cons item rest ih =>
      obtain ⟨hitem, hrest⟩ := List.forall_mem_cons.mp h
      exact hitem.append (ih hrest)

theorem of_text (h : '\n' ∉ text) (htext : concat chunks = text ++ ['\n'])
    (hreindent : concat (chunks.map (reindent f)) = Text.reindent f text ++ ['\n']) :
    AreLines f chunks := by
  refine ⟨.inr (by simp [htext]), ?_⟩
  rw [htext, hreindent, Text.reindentLines_line h]
  rfl

theorem raw (h : '\n' ∉ text) : AreLines f [.raw text, .raw ['\n']] := by
  have hnewline : Text.reindent f ['\n'] = ['\n'] := rfl
  exact of_text h (by simp [concat, Chunk.text]) (by simp [concat, Chunk.text, reindent, hnewline])

theorem reindent_spaces_append (h : body.IsBody) (n : Nat) :
    Text.reindent f (Text.spaces n ++ body) = Text.spaces (f n) ++ body := by
  obtain ⟨c, hhead, hc⟩ := h.head
  obtain ⟨tail, rfl⟩ := List.head?_eq_some_iff.mp hhead
  have hblank : ∀ b ∈ Text.spaces n, Text.isBlank b = true :=
    fun _ hb => List.eq_of_mem_replicate hb ▸ by decide
  rw [Text.reindent_blanks_append hblank hc, Text.reindentBlanks]
  simp [Text.spaces]

theorem line (h : body.IsBody) (n : Nat) : AreLines f [.line (Text.spaces n) body] := by
  refine of_text (Text.newline_notMem_spaces_append h.newline_notMem n) (by simp [concat, Chunk.text]) ?_
  rw [reindent_spaces_append h]
  simp [concat, Chunk.text, reindent, Text.spaces]

theorem indented (h : body.IsBody) (n : Nat) : AreLines f [.indented n body] := by
  refine of_text (Text.newline_notMem_spaces_append h.newline_notMem n) (by simp [concat, Chunk.text]) ?_
  rw [reindent_spaces_append h]
  simp [concat, Chunk.text, reindent]

end AreLines

end Chunk

theorem Turn.areLines_own {turn : Turn} (h : turn.statement.IsRegular) :
    Chunk.AreLines f turn.own := by
  unfold own
  split
  · exact .raw h.newline_notMem
  · split
    · rename_i hb
      rw [Converter.copyBlank, h.terminated hb]
      exact .raw h.newline_notMem
    · rename_i hb
      have hblank : turn.statement.isBlank = false := by simpa using hb
      obtain ⟨hstripped, hrender⟩ := Statement.isBody h.newline_notMem hblank
      have hindentation := Text.indentation_eq_spaces (h.spaced hblank)
      rw [Statement.indentation, hindentation]
      split
      · rename_i body closer hline
        exact .line (hrender _ _ _ hline) _
      · rename_i kind _
        exact .indented kind.isBody.1 _
      · exact .line hstripped _

namespace Converter

theorem areLines_finish {converter : Converter} (hs : converter.Sound) :
    Chunk.AreLines f converter.finish.1 := by
  rw [finish_fst]
  refine .append (.map fun filter _ => ?_) (.map fun frame hframe => ?_)
  · exact .indented filter.kind.isBody.2 _
  · exact .indented (hs.closers frame hframe).isBody _

theorem areLines_step {converter : Converter} (hs : converter.Sound) {statement : Statement}
    (h : statement.IsRegular) (nextIndent : Nat) :
    Chunk.AreLines f (converter.step statement nextIndent).1 := by
  rw [step_eq rfl]
  refine .append (.append ?_ (.map fun frame hframe => ?_)) (Turn.areLines_own h)
  · unfold Turn.filterEnd
    split
    · exact .nil
    · exact .map fun filter _ => .indented filter.kind.isBody.2 _
  · have hmem := (List.takeWhile_prefix _).mem hframe
    exact .indented (hs.closers frame hmem).isBody _

theorem areLines_run {converter : Converter} (hs : converter.Sound) {statements : List Statement}
    (h : ∀ statement ∈ statements, statement.IsRegular) :
    Chunk.AreLines f (converter.run statements).1 := by
  induction statements generalizing converter with
  | nil => exact areLines_finish hs
  | cons statement following ih =>
      obtain ⟨hstatement, hfollowing⟩ := List.forall_mem_cons.mp h
      have hsound := (moves_step hs statement (Statement.indentOfFirst following)).sound hs
      exact (areLines_step hs hstatement _).append (ih hsound hfollowing)

end Converter

/-! ## Documents -/

instance (line : Line) : Decidable line.IsSpaced :=
  inferInstanceAs (Decidable (line.isBlank = false → '\t' ∉ Text.indentation line.text))

/--
Only the order of indents matters. If no line with content has a tab in its indentation, and the
document does not end within a blank line, changing the width of all indentations by a strictly
increasing function changes the widths in the page by the same function, and no count.
-/
theorem convert_reindentLines {document : Text} (hf : StrictMono f)
    (hspaced : ∀ line ∈ Line.ofDocument document, line.IsSpaced)
    (hlast : ∀ line ∈ (Line.ofDocument document).getLast?, line.isBlank = true →
      line.terminated = true) :
    convert (Text.reindentLines f document)
      = { page := Text.reindentLines f (convert document).page
          stats := (convert document).stats } := by
  have hregular := Statement.isRegular_of_mem hspaced hlast
  have hstatements : Statement.ofDocument (Text.reindentLines f document)
      = (Statement.ofDocument document).map (Statement.reindent f) := by
    rw [Statement.ofDocument, Line.ofDocument_reindentLines, Statement.ofLines_reindent hf hspaced,
      Statement.ofDocument]
  -- The run makes reindented chunks; that these make the reindented page needs whole lines.
  have hrun := Converter.run_reindent hf hregular .start
  have hstart : Converter.start.reindent f = .start := rfl
  rw [hstart] at hrun
  have hpage := (Converter.areLines_run (f := f) Converter.sound_start hregular).concat_reindent
  simp only [convert, hstatements, hrun, hpage, Line.ofDocument_reindentLines, List.length_map]
  simp [Converter.reindent, Scopes.reindent, Filters.reindent]

/-- A block of attributes with text, a blank line and a filter. -/
theorem convert_reindentLines_double :
    let document := "%ul\x7b\n  id: 'b'\n\x7d\n  text\n\n  :ruby\n     x = 1\n".toList
    convert document
        = ⟨"<ul id=\"b\">\n\n  <%\n     x = 1\n  %>\n</ul>\n".toList, ⟨7, 4, 1, 1, 1, 0⟩⟩
      ∧ convert (Text.reindentLines (2 * · + 1) document)
        = ⟨" <ul id=\"b\">\n\n     <%\n           x = 1\n     %>\n </ul>\n".toList, ⟨7, 4, 1, 1, 1, 0⟩⟩ := by
  intro document
  have hf : StrictMono (2 * · + 1 : Nat → Nat) := fun a b h => by
    show 2 * a + 1 < 2 * b + 1
    omega
  have hdocument : convert document
      = ⟨"<ul id=\"b\">\n\n  <%\n     x = 1\n  %>\n</ul>\n".toList, ⟨7, 4, 1, 1, 1, 0⟩⟩ := by decide +kernel
  have hpage : Text.reindentLines (2 * · + 1) "<ul id=\"b\">\n\n  <%\n     x = 1\n  %>\n</ul>\n".toList
      = " <ul id=\"b\">\n\n     <%\n           x = 1\n     %>\n </ul>\n".toList := by decide +kernel
  have hreindent := @convert_reindentLines _ document hf (by decide) (by decide)
  rw [hdocument, hpage] at hreindent
  exact ⟨hdocument, hreindent⟩

end Haml
