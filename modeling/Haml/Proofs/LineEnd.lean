import Haml.Proofs.Row

/-!
# Ends of lines

A newline may have a carriage return before it, and there may be blanks behind what stands on a line. The
carriage return belongs to the line ending. The blanks are part of the line, but all that is done with a line
that has content is done with its content and its indentation; only filters copy lines as they are. Main
statement: neither has any influence on the page or on what is counted, unless a filter is started.
-/

namespace Haml

/-! ## Carriage returns -/

/-- The text with a carriage return before every newline. -/
def Text.withReturns (s : Text) : Text := s.flatMap fun c => if c = '\n' then ['\r', '\n'] else [c]

theorem Text.withReturns_of_newline_notMem {s : Text} (h : '\n' ∉ s) : withReturns s = s := by
  induction s with
  | nil => rfl
  | cons c cs ih =>
      obtain ⟨hc, hcs⟩ := List.ne_and_not_mem_of_not_mem_cons h
      have hrest : (cs.flatMap fun c => if c = '\n' then ['\r', '\n'] else [c]) = cs := ih hcs
      rw [withReturns, List.flatMap_cons, if_neg hc.symm, hrest]
      rfl

theorem Text.withReturns_line {body : Text} (h : '\n' ∉ body) (rest : Text) :
    withReturns (body ++ '\n' :: rest) = (body ++ ['\r']) ++ '\n' :: withReturns rest := by
  have hbody := withReturns_of_newline_notMem h
  rw [withReturns] at hbody
  rw [withReturns, List.flatMap_append, hbody, List.append_assoc]
  rfl

theorem Line.ofDocument_withReturns {document : Text} (h : '\r' ∉ document) :
    ofDocument (Text.withReturns document) = ofDocument document := by
  induction document using documentInduction with
  | nil => rfl
  | last body hne hbody => rw [Text.withReturns_of_newline_notMem hbody]
  | line body rest hbody ih =>
      obtain ⟨hreturn, hrest⟩ := not_or.mp (mt List.mem_append.mpr h)
      have hnewline : '\n' ∉ body ++ ['\r'] := by simp [hbody]
      have hlast : body.getLast? ≠ some '\r' := fun hlast => hreturn (List.mem_of_getLast? hlast)
      have hbefore : Text.beforeLast? '\r' (body ++ ['\r']) = some body := by simp [Text.beforeLast?]
      rw [Text.withReturns_line hbody, ofDocument_line hnewline, ofDocument_line hbody,
        ih (List.not_mem_of_not_mem_cons hrest), ofRaw_line, ofRaw_line, hbefore, Text.beforeLast?, if_neg hlast]
      rfl

/-! ## Blanks behind content -/

namespace Text

variable {s : Text}

/-- The text without the blanks behind its content; a blank text stays as it is. -/
def trimContent (s : Text) : Text := if (trim s).isEmpty then s else trimEnd s

theorem trimContent_of_trim_eq_nil (h : trim s = []) : trimContent s = s := by
  rw [trimContent, h]
  rfl

theorem trimContent_of_trim_ne_nil (h : trim s ≠ []) : trimContent s = trimEnd s := by
  rw [trimContent, if_neg (by simpa using h)]

theorem trim_trimContent (s : Text) : trim (trimContent s) = trim s := by
  by_cases h : trim s = []
  · rw [trimContent_of_trim_eq_nil h]
  · rw [trimContent_of_trim_ne_nil h, trim_trimEnd]

theorem trimContent_trimContent (s : Text) : trimContent (trimContent s) = trimContent s := by
  by_cases h : trim s = []
  · rw [trimContent_of_trim_eq_nil h, trimContent_of_trim_eq_nil h]
  · have hagain : trim (trimEnd s) ≠ [] := by rwa [trim_trimEnd]
    rw [trimContent_of_trim_ne_nil h, trimContent_of_trim_ne_nil hagain, trimEnd_trimEnd]

theorem indentation_trimContent (s : Text) : indentation (trimContent s) = indentation s := by
  by_cases h : trim s = []
  · rw [trimContent_of_trim_eq_nil h]
  · obtain ⟨blanks, c, tail, _, hc, hs⟩ := exists_blanks h
    rw [trimContent_of_trim_ne_nil h, hs, trimEnd_append_cons hc, indentation_append_cons hc,
      indentation_append_cons hc]

theorem takeWhile_isBlank_trimEnd (h : trim s ≠ []) : (trimEnd s).takeWhile isBlank = s.takeWhile isBlank := by
  obtain ⟨blanks, c, tail, hb, hc, rfl⟩ := exists_blanks h
  rw [trimEnd_append_cons hc, takeWhile_isBlank_append hb hc, takeWhile_isBlank_append hb hc]

end Text

namespace Line

/-- The line without the blanks behind its content. -/
def trimContent (line : Line) : Line := { line with text := Text.trimContent line.text }

@[simp]
theorem stripped_trimContent (line : Line) : line.trimContent.stripped = line.stripped :=
  Text.trim_trimContent line.text

@[simp]
theorem isBlank_trimContent (line : Line) : line.trimContent.isBlank = line.isBlank :=
  congrArg List.isEmpty line.stripped_trimContent

@[simp]
theorem indent_trimContent (line : Line) : line.trimContent.indent = line.indent :=
  congrArg List.length (Text.indentation_trimContent line.text)

end Line

namespace Statement

/-- The statement without the blanks behind its content. -/
def trimContent (statement : Statement) : Statement :=
  { statement with text := Text.trimContent statement.text }

@[simp]
theorem stripped_trimContent (statement : Statement) : statement.trimContent.stripped = statement.stripped :=
  Text.trim_trimContent statement.text

@[simp]
theorem isBlank_trimContent (statement : Statement) : statement.trimContent.isBlank = statement.isBlank :=
  congrArg List.isEmpty statement.stripped_trimContent

@[simp]
theorem indentation_trimContent (statement : Statement) :
    statement.trimContent.indentation = statement.indentation :=
  Text.indentation_trimContent statement.text

@[simp]
theorem indent_trimContent (statement : Statement) : statement.trimContent.indent = statement.indent :=
  congrArg List.length statement.indentation_trimContent

theorem trimContent_of_isBlank {statement : Statement} (h : statement.isBlank = true) :
    statement.trimContent = statement := by
  rw [trimContent, Text.trimContent_of_trim_eq_nil (List.isEmpty_iff.mp h)]

theorem indentOfFirst_trimContent (statements : List Statement) :
    indentOfFirst (statements.map trimContent) = indentOfFirst statements := by
  have hfind : (statements.map trimContent).find? (!·.isBlank)
      = (statements.find? (!·.isBlank)).map trimContent :=
    find?_map_of_invariant (fun next : Statement => congrArg (!·) next.isBlank_trimContent) statements
  rw [indentOfFirst, hfind, indentOfFirst]
  cases statements.find? (!·.isBlank) with
  | none => rfl
  | some first => exact first.indent_trimContent

/-! ## Folding -/

variable {line : Line}

/-- An attribute block is made of the content of its lines. -/
theorem block?_trimContent (h : line.isBlank = false) (following : List Line) :
    block? line.trimContent (following.map Line.trimContent) = block? line following := by
  have hattributes : ∀ indent, blockAttributes? indent (following.map Line.trimContent)
      = blockAttributes? indent following :=
    blockAttributes?_map Line.stripped_trimContent strictMono_id fun next _ _ => next.indent_trimContent
  have hcontent : ∀ taken indent, blockContent indent ((following.map Line.trimContent).drop taken)
      = blockContent indent (following.drop taken) := by
    intro taken indent
    rw [← List.map_drop]
    exact blockContent_map Line.stripped_trimContent strictMono_id (fun next _ _ => next.indent_trimContent) indent
  have hblanks : line.trimContent.text.takeWhile Text.isBlank = line.text.takeWhile Text.isBlank := by
    have hne := Line.stripped_ne_nil h
    rw [Line.trimContent, Text.trimContent_of_trim_ne_nil hne, Text.takeWhile_isBlank_trimEnd hne]
  simp only [block?, Line.stripped_trimContent, Line.indent_trimContent, hattributes, hcontent, hblanks]

/-- An output that goes on is made of its own content and that of the lines it takes. -/
theorem continued_trimContent (h : line.isBlank = false) (following : List Line) :
    continued line.trimContent (following.map Line.trimContent) = continued line following := by
  have habsorb : absorb (fun next => line.indent < next.indent) (following.map Line.trimContent)
      = absorb (fun next => line.indent < next.indent) following :=
    absorb_map Line.stripped_trimContent fun next _ _ => by rw [next.indent_trimContent]
  have htext : Text.trimEnd line.trimContent.text = Text.trimEnd line.text := by
    rw [Line.trimContent, Text.trimContent_of_trim_ne_nil (Line.stripped_ne_nil h), Text.trimEnd_trimEnd]
  simp only [continued, Line.indent_trimContent, habsorb, htext]

theorem first_trimContent (line : Line) (following : List Line) :
    (first line.trimContent (following.map Line.trimContent)).trimContent
      = (first line following).trimContent := by
  have hsingle : (single line.trimContent).trimContent = (single line).trimContent := by
    simp only [single, trimContent, Line.trimContent, Text.trimContent_trimContent]
  cases hb : line.isBlank with
  | true => rw [first_of_isBlank _ hb, first_of_isBlank _ (by simpa using hb), hsingle]
  | false =>
      unfold first
      rw [block?_trimContent hb, continued_trimContent hb, Line.stripped_trimContent]
      cases block? line following with
      | some statement => rfl
      | none =>
          cases isContinued line.stripped with
          | true => rfl
          | false => exact hsingle

/-- Lines that differ only in the blanks behind their content are folded into statements that do so. -/
theorem ofLines_trimContent (lines : List Line) :
    (ofLines (lines.map Line.trimContent)).map trimContent = (ofLines lines).map trimContent := by
  induction lines using ofLines.induct with
  | case1 => simp [ofLines]
  | case2 line following ih =>
      have hfirst := first_trimContent line following
      have hspan : (first line.trimContent (following.map Line.trimContent)).span = (first line following).span :=
        (congrArg span hfirst :)
      rw [List.map_cons, ofLines, hspan, ← List.map_drop, List.map_cons, hfirst, ih, ofLines, List.map_cons]

end Statement

/-! ## Runs -/

theorem Filters.takes_trimContent (filters : Filters) (statement : Statement) :
    filters.takes statement.trimContent = filters.takes statement := by
  simp only [takes, Statement.isBlank_trimContent, Statement.indent_trimContent]

namespace Converter

variable {converter : Converter} {statements : List Statement}

/-- A statement is converted by its content and its indentation. -/
theorem convert_trimContent (converter : Converter) (statement : Statement) (nextIndent : Nat) :
    converter.convert statement.trimContent nextIndent = converter.convert statement nextIndent := by
  cases hb : statement.isBlank with
  | true => rw [Statement.trimContent_of_isBlank hb]
  | false =>
      have hwrite : ∀ (converter : Converter) (hasChildren : Bool) (rendering : Rendering),
          converter.write statement.trimContent hasChildren rendering
            = converter.write statement hasChildren rendering := by
        intro converter hasChildren rendering
        cases rendering <;> simp [write]
      simp only [convert, Statement.isBlank_trimContent, hb, Bool.false_eq_true, if_false,
        Statement.indent_trimContent, Statement.stripped_trimContent, Statement.render, hwrite]

/-- Outside of filters, blanks behind the content change nothing. -/
theorem step_trimContent {statement : Statement} (h : converter.filters.takes statement = false)
    (nextIndent : Nat) :
    converter.step statement.trimContent nextIndent = converter.step statement nextIndent := by
  simp only [step, Filters.absorb?, Filters.takes_trimContent, h, Bool.false_eq_true, if_false,
    convert_trimContent]

/-- A filter copies the blanks, but the standing after a statement does not depend on them. -/
theorem step_trimContent_snd (converter : Converter) (statement : Statement) (nextIndent : Nat) :
    (converter.step statement.trimContent nextIndent).2 = (converter.step statement nextIndent).2 := by
  cases h : converter.filters.takes statement with
  | true => simp [step, Filters.absorb?, Filters.takes_trimContent, h]
  | false => rw [step_trimContent h]

theorem run_trimContent_snd (converter : Converter) (statements : List Statement) :
    (converter.run (statements.map Statement.trimContent)).2 = (converter.run statements).2 := by
  induction statements generalizing converter with
  | nil => rfl
  | cons statement following ih =>
      simp only [List.map_cons, run, ih, Statement.indentOfFirst_trimContent, step_trimContent_snd]

/-- A run that starts no filter makes the same of statements without the blanks behind their content. -/
theorem run_trimContent (hactive : converter.filters.active = none)
    (h : ∀ turn ∈ Turn.list none statements, turn.startsFilter = false) :
    converter.run (statements.map Statement.trimContent) = converter.run statements := by
  induction statements generalizing converter with
  | nil => rfl
  | cons statement following ih =>
      obtain ⟨hturn, hturns⟩ := List.forall_mem_cons.mp h
      have htakes : converter.filters.takes statement = false := by rw [Filters.takes, hactive]; rfl
      have hafter := Turn.filterAfter_eq_none rfl hturn
      have hstanding : (converter.step statement (Statement.indentOfFirst following)).2.filters.active = none := by
        rw [step_eq rfl, hactive]
        exact hafter
      rw [hafter] at hturns
      simp only [List.map_cons, run, Statement.indentOfFirst_trimContent, step_trimContent htakes,
        ih hstanding hturns]

theorem startsFilter_eq_false_of_run (h : (start.run statements).2.filters.opened = 0) :
    ∀ turn ∈ Turn.list none statements, turn.startsFilter = false := by
  rw [filtersOpened_run] at h
  have hnone : ((Turn.list none statements).filter Turn.startsFilter).length = 0 := (Nat.add_eq_zero_iff.mp h).2
  simpa using List.length_eq_zero_iff.mp hnone

end Converter

/-! ## Documents -/

/-- A conversion without filters reads of a document only the lines without the blanks behind their content. -/
theorem convert_eq_of_trimContent {document other : Text}
    (hlines : (Line.ofDocument other).map Line.trimContent = (Line.ofDocument document).map Line.trimContent)
    (hfilters : (convert document).stats.filtersOpened = 0) : convert other = convert document := by
  have hstatements : (Statement.ofDocument other).map Statement.trimContent
      = (Statement.ofDocument document).map Statement.trimContent := by
    rw [Statement.ofDocument, ← Statement.ofLines_trimContent, hlines, Statement.ofLines_trimContent,
      Statement.ofDocument]
  have hstanding : (Converter.start.run (Statement.ofDocument other)).2
      = (Converter.start.run (Statement.ofDocument document)).2 := by
    rw [← Converter.run_trimContent_snd, hstatements, Converter.run_trimContent_snd]
  have hrun : Converter.start.run (Statement.ofDocument other)
      = Converter.start.run (Statement.ofDocument document) := by
    have hother := congrArg (fun converter : Converter => converter.filters.opened) hstanding
    rw [← Converter.run_trimContent rfl (Converter.startsFilter_eq_false_of_run (hother.trans hfilters)),
      hstatements, Converter.run_trimContent rfl (Converter.startsFilter_eq_false_of_run hfilters)]
  have hlengths : (Line.ofDocument other).length = (Line.ofDocument document).length := by
    simpa using congrArg List.length hlines
  have hspans : (Statement.ofDocument other).length = (Statement.ofDocument document).length := by
    simpa using congrArg List.length hstatements
  simp only [convert, hrun, hlengths, hspans]

/-- Blanks that can be put behind what stands on a line: none of them ends the line, and a blank line gets none. -/
structure Text.IsGap (body gap : Text) : Prop where
  isBlank : ∀ b ∈ gap, Text.isBlank b = true
  newline_notMem : '\n' ∉ gap
  eq_nil : trim body = [] → gap = []

instance (body gap : Text) : Decidable (Text.IsGap body gap) :=
  decidable_of_iff (gap.all Text.isBlank = true ∧ '\n' ∉ gap ∧ (Text.trim body = [] → gap = []))
    ⟨fun ⟨hblank, hnewline, hnil⟩ => ⟨List.all_eq_true.mp hblank, hnewline, hnil⟩,
      fun h => ⟨List.all_eq_true.mpr h.isBlank, h.newline_notMem, h.eq_nil⟩⟩

/-- The second text is the first one with blanks behind what stands on any of its lines that are not blank. -/
inductive Text.IsPadded : Text → Text → Prop where
  | last (body gap : Text) : '\n' ∉ body → IsGap body gap → IsPadded body (body ++ gap)
  | line (body gap ending : Text) {rest padded : Text} : '\n' ∉ body → IsGap body gap →
      ending ∈ [[], ['\r']] → IsPadded rest padded →
      IsPadded (body ++ (ending ++ '\n' :: rest)) (body ++ (gap ++ (ending ++ '\n' :: padded)))

/-- The carriage return of a line ending counts as a blank behind the line. -/
theorem Line.trimEnd_text_ofRaw (body : Text) :
    Text.trimEnd (ofRaw (body ++ ['\n'])).text = Text.trimEnd body := by
  rw [ofRaw_line, Text.beforeLast?]
  split
  · rename_i hlast
    obtain ⟨before, rfl⟩ := List.getLast?_eq_some_iff.mp hlast
    rw [Option.getD_some, List.dropLast_concat]
    exact (Text.trimEnd_append_blanks (List.forall_mem_singleton.mpr rfl) before).symm
  · rfl

theorem Line.trimContent_ofRaw {body blanks : Text} (h : Text.trim body ≠ [])
    (hblanks : ∀ b ∈ blanks, Text.isBlank b = true) :
    (ofRaw (body ++ blanks ++ ['\n'])).trimContent = ⟨Text.trimEnd body, true⟩ := by
  have htext := (trimEnd_text_ofRaw (body ++ blanks)).trans (Text.trimEnd_append_blanks hblanks body)
  have hne : Text.trim (ofRaw (body ++ blanks ++ ['\n'])).text ≠ [] := by
    rwa [← Text.trim_trimEnd, htext, Text.trim_trimEnd]
  rw [trimContent, Text.trimContent_of_trim_ne_nil hne, htext, ofRaw_line]

/-- The lines of a padded document differ from those of the document in the blanks behind their content. -/
theorem Text.IsPadded.ofDocument {document padded : Text} (h : IsPadded document padded) :
    (Line.ofDocument padded).map Line.trimContent = (Line.ofDocument document).map Line.trimContent := by
  induction h with
  | last body gap hbody hgap =>
      by_cases hb : trim body = []
      · rw [hgap.eq_nil hb, List.append_nil]
      · have hne : body ≠ [] := by
          rintro rfl
          exact hb rfl
        have htrim : trim (body ++ gap) ≠ [] := by
          rwa [← trim_trimEnd, trimEnd_append_blanks hgap.isBlank, trim_trimEnd]
        have hnewline : '\n' ∉ body ++ gap := by simp [hbody, hgap.newline_notMem]
        rw [Line.ofDocument_last hne hbody, Line.ofDocument_last (List.append_ne_nil_of_left_ne_nil hne gap) hnewline,
          List.map_singleton, List.map_singleton, Line.trimContent, trimContent_of_trim_ne_nil htrim,
          trimEnd_append_blanks hgap.isBlank, Line.trimContent, trimContent_of_trim_ne_nil hb]
  | line body gap ending hbody hgap hending _ ih =>
      have hblanks : ∀ b ∈ ending, isBlank b = true ∧ b ≠ '\n' := by
        rcases (by simpa using hending : ending = [] ∨ ending = ['\r']) with rfl | rfl
        · exact List.forall_mem_nil _
        · exact List.forall_mem_singleton.mpr ⟨rfl, by decide⟩
      have hnewline : '\n' ∉ ending := fun hmem => (hblanks _ hmem).2 rfl
      have hleft : '\n' ∉ body ++ ending := by simp [hbody, hnewline]
      have hright : '\n' ∉ body ++ (gap ++ ending) := by simp [hbody, hgap.newline_notMem, hnewline]
      have hsplit : ∀ blanks below : Text, body ++ (blanks ++ '\n' :: below) = body ++ blanks ++ '\n' :: below :=
        fun blanks below => (List.append_assoc body blanks _).symm
      rw [← List.append_assoc gap, hsplit, hsplit, Line.ofDocument_line hleft, Line.ofDocument_line hright,
        List.map_cons, List.map_cons, ih]
      by_cases hb : trim body = []
      · rw [hgap.eq_nil hb, List.nil_append]
      · have hboth : ∀ b ∈ gap ++ ending, isBlank b = true :=
          List.forall_mem_append.mpr ⟨hgap.isBlank, fun b hmem => (hblanks b hmem).1⟩
        rw [Line.trimContent_ofRaw hb hboth, Line.trimContent_ofRaw hb fun b hmem => (hblanks b hmem).1]

/--
Line endings and blanks at the end of lines do not matter. With a carriage return before every newline, a
document without carriage returns is converted to the same page with the same counts. So is a document whose
conversion starts no filter, with blanks put behind what stands on any of its lines that are not blank.
-/
theorem convert_lineEnds (document : Text) :
    ('\r' ∉ document → convert (Text.withReturns document) = convert document)
      ∧ ((convert document).stats.filtersOpened = 0 →
          ∀ padded, Text.IsPadded document padded → convert padded = convert document) := by
  refine ⟨fun h => ?_, fun hfilters padded hpadded => convert_eq_of_trimContent hpadded.ofDocument hfilters⟩
  simp only [convert, Statement.ofDocument, Line.ofDocument_withReturns h]

/-- An attribute block, a continued output, and a line that already ends with a carriage return. -/
theorem convert_lineEnds_block :
    convert (Text.withReturns "%ul\x7b\n  id: 'b',\n\x7d\n  = f a,\n\n      b\n".toList)
        = convert "%ul\x7b\n  id: 'b',\n\x7d\n  = f a,\n\n      b\n".toList
      ∧ convert "%ul\x7b \n  id: 'b',\t\r\n\x7d\n= f a,  \n\n    b ".toList
        = convert "%ul\x7b\n  id: 'b',\r\n\x7d\n= f a,\n\n    b".toList := by
  have hpadded : Text.IsPadded "%ul\x7b\n  id: 'b',\r\n\x7d\n= f a,\n\n    b".toList
      "%ul\x7b \n  id: 'b',\t\r\n\x7d\n= f a,  \n\n    b ".toList :=
    .line "%ul\x7b".toList [' '] [] (by decide) (by decide) (by decide) <|
    .line "  id: 'b',".toList ['\t'] ['\r'] (by decide) (by decide) (by decide) <|
    .line ['\x7d'] [] [] (by decide) (by decide) (by decide) <|
    .line "= f a,".toList [' ', ' '] [] (by decide) (by decide) (by decide) <|
    .line [] [] [] (by decide) (by decide) (by decide) <|
    .last "    b".toList [' '] (by decide) (by decide)
  exact ⟨(convert_lineEnds _).1 (by decide), (convert_lineEnds _).2 (by decide +kernel) _ hpadded⟩

end Haml
