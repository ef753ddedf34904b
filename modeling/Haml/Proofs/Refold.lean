import Haml.Proofs.OutputBlock
import Haml.Proofs.Partition

/-!
# Folding again

The statements of a document, each written on a line of its own, make a document again. Main statement: its
statements are the lines it was written on, with the same texts and indents. What was folded is not folded
further, and what was left alone the first time is left alone again: an attribute block that does not close
has no closing brace among the statements either, and an output takes all deeper lines at once.
-/

namespace Haml

namespace Statement

variable {line : Line} {following lines : List Line} {statements : List Statement} {indent : Nat}

/-! ## Statements as lines -/

/-- The line that a statement is written on. -/
def toLine (statement : Statement) : Line := ⟨statement.text, true⟩

/-- The texts of the statements, each on a line of its own. -/
def written (statements : List Statement) : Text := statements.flatMap (·.text ++ ['\n'])

theorem ofDocument_written_lines
    (h : ∀ statement ∈ statements, '\n' ∉ statement.text ∧ '\r' ∉ statement.text) :
    Line.ofDocument (written statements) = statements.map toLine := by
  induction statements with
  | nil => rfl
  | cons statement rest ih =>
      obtain ⟨⟨hnewline, hreturn⟩, hrest⟩ := List.forall_mem_cons.mp h
      have hlast : statement.text.getLast? ≠ some '\r' := fun hlast => hreturn (List.mem_of_getLast? hlast)
      have hwritten : written (statement :: rest) = statement.text ++ '\n' :: written rest := by
        simp [written]
      rw [hwritten, Line.ofDocument_line hnewline, Line.ofRaw_line, ih hrest, List.map_cons]
      simp [Text.beforeLast?, hlast, toLine]

/-! ## Outputs -/

theorem trimEnd_text_continued (line : Line) (following : List Line) :
    Text.trimEnd (continued line following).text = (continued line following).text := by
  have hlast := isBlank_getLast?_absorb (fun next => line.indent < next.indent) following
  rw [text_continued]
  generalize (absorb _ following).1.flatMap (' ' :: ·) = contents at hlast ⊢
  by_cases hnil : contents = []
  · rw [hnil, List.append_nil, Text.trimEnd_trimEnd]
  · refine Text.trimEnd_eq_self fun c hc => hlast c ?_
    rwa [List.getLast?_append_of_ne_nil _ hnil] at hc

/-- If no statement with content that comes next is deeper, only blank statements are under the indent. -/
theorem isBlank_of_mem_takeWhile_isUnder (h : ¬ indent < indentOfFirst statements) :
    ∀ statement ∈ statements.takeWhile (isUnder indent), statement.isBlank = true := by
  induction statements with
  | nil => exact fun _ hmem => by cases hmem
  | cons statement rest ih =>
      cases hb : statement.isBlank with
      | true =>
          rw [indentOfFirst, List.find?_cons_of_neg (by simp [hb])] at h
          rw [List.takeWhile_cons_of_pos (by simp [isUnder, hb])]
          exact List.forall_mem_cons.mpr ⟨hb, ih h⟩
      | false =>
          rw [indentOfFirst, List.find?_cons_of_pos (by simp [hb])] at h
          rw [List.takeWhile_cons_of_neg (by simpa [isUnder, hb] using h)]
          exact fun _ hmem => by cases hmem

/-- Lines that statements are written on are absorbed as far as the statements are deeper. -/
theorem absorb_toLine (h : ¬ indent < indentOfFirst statements) :
    absorb (fun next => indent < next.indent) (statements.map toLine) = ([], 0) := by
  have hzero : (absorb (fun next => indent < next.indent) (statements.map toLine)).2 = 0 := by
    rw [absorb_snd_eq_zero_iff, List.takeWhile_map]
    intro next hnext
    obtain ⟨statement, hstatement, rfl⟩ := List.mem_map.mp hnext
    exact isBlank_of_mem_takeWhile_isUnder h statement hstatement
  refine Prod.ext ?_ hzero
  rw [absorb_fst_eq, hzero]
  rfl

/-- An output that goes on finds no line to take the second time. -/
theorem first_toLine_of_continued (h : isContinued line.stripped = true) (following : List Line) :
    first (first line following).toLine ((ofLines (linesAfter line following)).map toLine)
      = single (first line following).toLine := by
  have hfirst := first_of_continued h following
  have hindent : (first line following).toLine.indent = line.indent :=
    indent_first following (not_isBlank_of_continued h)
  cases hagain : isContinued (first line following).toLine.stripped with
  | true =>
      have htrim : Text.trimEnd (first line following).toLine.text = (first line following).text := by
        rw [hfirst]
        exact trimEnd_text_continued line following
      rw [first_of_continued hagain, continued, hindent,
        absorb_toLine (not_lt_indentOfFirst_of_continued h following), htrim]
      exact congrArg (folded · 1) (List.append_nil _)
  | false =>
      have hhead := head?_stripped_first following (not_isBlank_of_continued h)
      rw [of_decide_eq_true (Bool.and_eq_true_iff.mp h).1] at hhead
      obtain ⟨rest, hrest⟩ := List.head?_eq_some_iff.mp hhead
      have hopener : blockOpener? (first line following).toLine.stripped = none := by
        rw [show (first line following).toLine.stripped = _ from hrest]
        rfl
      exact first_eq_single _ hopener hagain

/-! ## Attribute blocks -/

/-- An attribute block closes if a line is a closing brace, and those before it are deeper or blank. -/
theorem isSome_blockAttributes?_iff :
    (blockAttributes? indent lines).isSome = true ↔ ∃ attributes closing rest,
      lines = attributes ++ closing :: rest ∧ closing.stripped = ['}']
        ∧ ∀ next ∈ attributes, next.isBlank = false → indent < next.indent := by
  constructor
  · intro h
    obtain ⟨⟨fragments, taken⟩, hattributes⟩ := Option.isSome_iff_exists.mp h
    obtain ⟨attributes, closing, rest, hlines, _, _, hclosing, _, hdeeper⟩ :=
      of_blockAttributes? hattributes
    exact ⟨attributes, closing, rest, hlines, hclosing, hdeeper⟩
  · rintro ⟨attributes, closing, rest, rfl, hclosing, hdeeper⟩
    by_cases hbraces : ∀ next ∈ attributes, next.stripped ≠ ['}']
    · rw [blockAttributes?_of_brace hdeeper hbraces hclosing]
      rfl
    · obtain ⟨above, brace, below, rfl, hbrace, habove⟩ := exists_first_brace hbraces
      rw [List.append_assoc, List.cons_append, blockAttributes?_of_brace
        (fun next hnext => hdeeper next (List.mem_append_left _ hnext)) habove hbrace]
      rfl

theorem of_mem_take_absorb {accept : Line → Bool} :
    ∀ next ∈ lines.take (absorb accept lines).2, next.isBlank = false → accept next = true := by
  induction lines with
  | nil => exact fun _ hmem => by cases hmem
  | cons line rest ih =>
      simp only [absorb]
      cases hb : line.isBlank with
      | true =>
          cases hrest : absorb accept rest with
          | mk contents taken =>
              rw [hrest] at ih
              cases taken with
              | zero => exact fun _ hmem => by cases hmem
              | succ taken =>
                  exact List.forall_mem_cons.mpr ⟨fun hnot => absurd (hb.symm.trans hnot) (by decide), ih⟩
      | false =>
          cases ha : accept line with
          | true => exact List.forall_mem_cons.mpr ⟨fun _ => ha, ih⟩
          | false => exact fun _ hmem => by cases hmem

/-- An attribute block that does not close is not closed by what comes after a deeper statement either. -/
theorem blockAttributes?_linesAfter (hdeeper : indent < line.indent)
    (h : blockAttributes? indent following = none) :
    blockAttributes? indent (linesAfter line following) = none := by
  have hopen : ∀ attributes closing rest, following = attributes ++ closing :: rest →
      closing.stripped = ['}'] →
        ¬ ∀ next ∈ attributes, next.isBlank = false → indent < next.indent := by
    intro attributes closing rest hlines hclosing hattributes
    have hsome :=
      isSome_blockAttributes?_iff.mpr ⟨attributes, closing, rest, hlines, hclosing, hattributes⟩
    rw [h] at hsome
    cases hsome
  rcases first_cases line following with hblock | ⟨hcontinued, _⟩ | ⟨_, _, hfirst⟩
  · -- A block that is nested closes at a brace that would close the outer one.
    obtain ⟨_, _, _, _, hattributes, _⟩ := of_block? hblock
    obtain ⟨attributes, closing, rest, hlines, _, _, hclosing, _, hnested⟩ :=
      of_blockAttributes? hattributes
    exact absurd (fun next hnext hb => Nat.lt_trans hdeeper (hnested next hnext hb))
      (hopen attributes closing rest hlines hclosing)
  · by_contra hne
    obtain ⟨attributes, closing, rest, hlines, hclosing, hattributes⟩ :=
      isSome_blockAttributes?_iff.mp (Option.isSome_iff_ne_none.mpr hne)
    rw [linesAfter_of_continued hcontinued] at hlines
    have hsplit : following = following.take (absorb (fun next => line.indent < next.indent) following).2
        ++ attributes ++ closing :: rest := by
      rw [List.append_assoc, ← hlines, List.take_append_drop]
    refine hopen _ closing rest hsplit hclosing fun next hnext hb => ?_
    rcases List.mem_append.mp hnext with htaken | hlater
    · exact Nat.lt_trans hdeeper (of_decide_eq_true (of_mem_take_absorb next htaken hb))
    · exact hattributes next hlater hb
  · rw [linesAfter, hfirst]
    exact h

theorem head_of_block? {statement : Statement} (h : block? line following = some statement) :
    ∃ c, line.stripped.head? = some c ∧ (c = '%' ∨ c = '.' ∨ c = '#') := by
  obtain ⟨_, _, _, hopener, _⟩ := of_block? h
  obtain ⟨hopens, _⟩ := Option.ite_none_right_eq_some.mp hopener
  obtain ⟨c, cs, hstripped, hc⟩ := head_of_startsElement (Bool.and_eq_true_iff.mp hopens).1
  exact ⟨c, by rw [hstripped]; rfl, hc⟩

/-- Only a closing brace makes a statement that is one. -/
theorem stripped_first_ne_brace (hb : line.isBlank = false) (h : line.stripped ≠ ['}'])
    (following : List Line) : (first line following).stripped ≠ ['}'] := by
  intro heq
  have hhead := head?_stripped_first following hb
  rw [heq] at hhead
  rcases first_cases line following with hblock | ⟨hcontinued, _⟩ | ⟨_, _, hfirst⟩
  · obtain ⟨c, hc, hsigil⟩ := head_of_block? hblock
    obtain rfl : '}' = c := Option.some.inj (hhead.trans hc)
    exact absurd hsigil (by decide)
  · rw [of_decide_eq_true (Bool.and_eq_true_iff.mp hcontinued).1] at hhead
    exact absurd hhead (by decide)
  · rw [hfirst] at heq
    exact h heq

/-- An attribute block that does not close over some lines does not close over their statements. -/
theorem blockAttributes?_toLine (h : blockAttributes? indent lines = none) :
    blockAttributes? indent ((ofLines lines).map toLine) = none := by
  induction lines using ofLines.induct with
  | case1 => rw [ofLines]; rfl
  | case2 line following ih =>
      rw [ofLines, List.map_cons, blockAttributes?]
      rw [blockAttributes?] at h
      cases hb : line.isBlank with
      | true =>
          have hafter : linesAfter line following = following := by
            rw [linesAfter, first_of_isBlank following hb]
            rfl
          have hblank : (first line following).toLine.isBlank = true := by
            rw [first_of_isBlank following hb]
            exact hb
          rw [if_pos hb, Option.map_eq_none_iff] at h
          rw [if_pos hblank, Option.map_eq_none_iff]
          exact ih (by rw [← linesAfter, hafter]; exact h)
      | false =>
          have hblank : (first line following).toLine.isBlank = false := isBlank_first following hb
          have hindent : (first line following).toLine.indent = line.indent := indent_first following hb
          rw [if_neg (by simp [hb])] at h
          by_cases hbrace : line.stripped = ['}']
          · rw [if_pos hbrace] at h
            cases h
          · have hother : (first line following).toLine.stripped ≠ ['}'] :=
              stripped_first_ne_brace hb hbrace following
            rw [if_neg hbrace] at h
            rw [if_neg (by simp [hblank]), if_neg hother, hindent]
            by_cases hle : line.indent ≤ indent
            · rw [if_pos hle]
            · rw [if_neg hle, Option.map_eq_none_iff] at h
              rw [if_neg hle, Option.map_eq_none_iff]
              exact ih (blockAttributes?_linesAfter (Nat.lt_of_not_le hle) h)

/-! ## Statements again -/

/-- A statement that is written on a line is a statement by itself among the statements after it. -/
theorem first_toLine (line : Line) (following : List Line) :
    first (first line following).toLine ((ofLines (linesAfter line following)).map toLine)
      = single (first line following).toLine := by
  rcases first_cases line following with hblock | ⟨hcontinued, _⟩ | ⟨hblock, hcontinued, hfirst⟩
  · -- What is folded from a block is no opener again, and no output.
    obtain ⟨c, hc, hsigil⟩ := head_of_block? hblock
    have hb : line.isBlank = false := List.isEmpty_eq_false_iff.mpr fun hnil => by simp [hnil] at hc
    have hhead : (first line following).stripped.head? = some c :=
      (head?_stripped_first following hb).trans hc
    have hne : c ≠ '=' := by
      rintro rfl
      exact absurd hsigil (by decide)
    have hcontinued : isContinued (first line following).stripped = false := by
      simp [isContinued, hhead, hne]
    exact first_eq_single _ (blockOpener?_of_block? hblock) hcontinued
  · exact first_toLine_of_continued hcontinued following
  · have hafter : linesAfter line following = following := by
      rw [linesAfter, hfirst]
      rfl
    have hstripped : (first line following).toLine.stripped = line.stripped := by
      rw [hfirst]
      rfl
    have hindent : (first line following).toLine.indent = line.indent := by
      rw [hfirst]
      rfl
    have hagain : block? (first line following).toLine ((ofLines following).map toLine) = none := by
      rw [block?, hstripped, hindent]
      rw [block?] at hblock
      cases hopener : blockOpener? line.stripped with
      | none => rfl
      | some element =>
          rw [hopener] at hblock
          cases hattributes : blockAttributes? line.indent following with
          | none => rw [blockAttributes?_toLine hattributes]
          | some result => rw [hattributes] at hblock; cases hblock
    rw [hafter, first, hagain, hstripped, hcontinued]
    rfl

theorem ofLines_toLine (lines : List Line) :
    ofLines ((ofLines lines).map toLine) = (ofLines lines).map fun statement => single statement.toLine := by
  induction lines using ofLines.induct with
  | case1 =>
      rw [ofLines, List.map_nil, ofLines]
      rfl
  | case2 line following ih =>
      rw [ofLines, List.map_cons, List.map_cons, ← linesAfter, ofLines, first_toLine]
      exact congrArg _ ih

/--
If a document has no carriage return, its statements written on lines of their own have the same texts and
indents again.
-/
theorem ofDocument_written {document : Text} (h : '\r' ∉ document) :
    (ofDocument (written (ofDocument document))).map Statement.text = (ofDocument document).map Statement.text
      ∧ (ofDocument (written (ofDocument document))).map Statement.indent
        = (ofDocument document).map Statement.indent := by
  have hlines : Line.ofDocument (written (ofDocument document)) = (ofDocument document).map toLine :=
    ofDocument_written_lines fun statement hstatement => ⟨newline_notMem_text statement hstatement,
      notMem_text (by decide) (Line.notMem_text h) statement hstatement⟩
  have hagain : ofDocument (written (ofDocument document))
      = (ofDocument document).map fun statement => single statement.toLine := by
    rw [ofDocument, hlines]
    exact ofLines_toLine (Line.ofDocument document)
  rw [hagain, List.map_map, List.map_map]
  exact ⟨rfl, rfl⟩

/-- A block that does not close, an output that still ends with a comma, and a block with text below it. -/
theorem ofDocument_written_unclosed :
    '\r' ∉ "%a\x7b\n  = f a,\n\n    b,\n  text\n%p\x7b\n  id: 'x',\n\x7d\n  Hello\n  \n".toList
      ∧ (ofDocument (written (ofDocument
          "%a\x7b\n  = f a,\n\n    b,\n  text\n%p\x7b\n  id: 'x',\n\x7d\n  Hello\n  \n".toList))).map
            Statement.text
        = ["%a\x7b".toList, "  = f a, b,".toList, "  text".toList, "%p\x7b id: 'x' \x7d Hello".toList,
          "  ".toList] := by
  have hreturn : '\r' ∉
      "%a\x7b\n  = f a,\n\n    b,\n  text\n%p\x7b\n  id: 'x',\n\x7d\n  Hello\n  \n".toList := by decide
  exact ⟨hreturn, (ofDocument_written hreturn).1.trans (by decide +kernel)⟩

end Statement

end Haml
