import Haml.Proofs.BlockExtent
import Haml.Proofs.Continued

/-!
# Lines and the statements that are made of them

Each statement is made of a block of neighbouring lines, and the blocks are the lines of the document in
their order. A block of one line leaves the line as it is, but for blanks at its end; a longer one keeps what
stands on each of its lines, in order and without overlap. Main statement: the blocks of a document and what
each statement keeps of its block.
-/

namespace Haml

/-! ## Parts of a text -/

/-- The parts stand in the text one behind the other, so that none overlaps the next. -/
inductive Text.HasInOrder : List Text → Text → Prop where
  | nil (s : Text) : HasInOrder [] s
  | cons (before : Text) {part after : Text} {parts : List Text} :
      HasInOrder parts after → HasInOrder (part :: parts) (before ++ (part ++ after))

namespace Text.HasInOrder

variable {parts more : List Text} {part s t : Text}

theorem append (h : HasInOrder parts s) (h' : HasInOrder more t) : HasInOrder (parts ++ more) (s ++ t) := by
  induction h with
  | nil s =>
      cases h' with
      | nil t => exact .nil (s ++ t)
      | cons before h' =>
          rw [← List.append_assoc]
          exact .cons (s ++ before) h'
  | cons before h ih =>
      rw [List.append_assoc, List.append_assoc]
      exact .cons before ih

theorem singleton (h : part <:+: s) : HasInOrder [part] s := by
  obtain ⟨before, after, rfl⟩ := h
  rw [List.append_assoc]
  exact .cons before (.nil after)

theorem append_left (before : Text) (h : HasInOrder parts s) : HasInOrder parts (before ++ s) :=
  append (.nil before) h

theorem append_right (h : HasInOrder parts s) (after : Text) : HasInOrder parts (s ++ after) := by
  have happend := append h (.nil after)
  rwa [List.append_nil] at happend

/-- An empty part stands anywhere. -/
theorem of_filter (h : HasInOrder (parts.filter (· != [])) s) : HasInOrder parts s := by
  induction parts generalizing s with
  | nil => exact .nil s
  | cons part parts ih =>
      by_cases hempty : part = []
      · rw [List.filter_cons_of_neg (by simp [hempty])] at h
        exact hempty ▸ append (.cons [] (.nil [])) (ih h)
      · rw [List.filter_cons_of_pos (by simp [hempty])] at h
        cases h with
        | cons before h => exact .cons before (ih h)

theorem join (separator : Text) (parts : List Text) : HasInOrder parts (Text.join separator parts) := by
  induction parts with
  | nil => exact .nil []
  | cons first rest ih =>
      cases rest with
      | nil => exact singleton (by simp [Text.join])
      | cons second rest =>
          rw [join_cons_cons]
          exact .cons [] (ih.append_left separator)

theorem contents (parts : List Text) : HasInOrder parts (parts.flatMap (' ' :: ·)) := by
  induction parts with
  | nil => exact .nil []
  | cons first rest ih => exact .cons [' '] ih

end Text.HasInOrder

namespace Statement

variable {line : Line} {following : List Line}

/-! ## Blocks of lines -/

/-- What stands on the lines that are not blank. -/
def contentsOf (lines : List Line) : List Text := (lines.filter (!·.isBlank)).map Line.stripped

/-- The content of a line up to the brace that ends it. -/
def elementOf (line : Line) : Text := Text.trim line.stripped.dropLast

/--
What a statement keeps of the lines that it is folded from. If the first one ends with an open brace,
these are its element, the fragments of the lines up to the lone closing brace, and the contents of
those behind it; otherwise these are the contents of all lines.
-/
def keptOf : List Line → List Text
  | [] => []
  | line :: following =>
    if line.stripped.getLast? = some '\x7b' then
      elementOf line
        :: ((following.takeWhile (·.stripped ≠ ['\x7d'])).map (withoutComma ·.stripped)
          ++ contentsOf ((following.dropWhile (·.stripped ≠ ['\x7d'])).drop 1))
    else contentsOf (line :: following)

/-- What a statement has of the block of lines that it is made of. -/
structure IsMadeOf (statement : Statement) (block : List Line) : Prop where
  ne_nil : block ≠ []
  span_eq : statement.span = block.length
  indentation_eq : block.head?.map (Text.indentation ·.text) = some statement.indentation
  indent_eq : block.head?.map Line.indent = some statement.indent
  length_indentation : statement.indentation.length = statement.indent
  isBlank_iff : statement.isBlank = true ↔ ∃ line, block = [line] ∧ line.isBlank = true
  text_of_single : ∀ line, block = [line] → Text.trimEnd statement.text = Text.trimEnd line.text
  text_of_folded : 2 ≤ block.length → Text.HasInOrder (keptOf block) statement.text

/-! ## Attribute blocks -/

/-- The lines of an attribute block up to its closing brace, which is the first line of that kind. -/
theorem of_blockAttributes? {indent taken : Nat} {fragments : List Text}
    (h : blockAttributes? indent following = some (fragments, taken)) :
    ∃ attributes closing rest, following = attributes ++ closing :: rest ∧ taken = attributes.length + 1
      ∧ fragments = fragmentsOf attributes ∧ closing.stripped = ['}']
      ∧ (∀ next ∈ attributes, next.stripped ≠ ['}'])
      ∧ ∀ next ∈ attributes, next.isBlank = false → indent < next.indent := by
  induction following generalizing fragments taken with
  | nil => cases h
  | cons line rest ih =>
      -- A line that is no brace goes in front of the attribute lines that are found behind it.
      have hlater : ∀ {inner : List Text × Nat}, blockAttributes? indent rest = some inner →
          line.stripped ≠ ['}'] → (line.isBlank = false → indent < line.indent) →
          ∃ attributes closing more, line :: rest = attributes ++ closing :: more
            ∧ inner.2 + 1 = attributes.length + 1
            ∧ fragmentsOf [line] ++ inner.1 = fragmentsOf attributes ∧ closing.stripped = ['}']
            ∧ (∀ next ∈ attributes, next.stripped ≠ ['}'])
            ∧ ∀ next ∈ attributes, next.isBlank = false → indent < next.indent := by
        intro inner hinner hbrace hdeeper
        obtain ⟨attributes, closing, more, rfl, htaken, hfragments, hclosing, hbraces, hdeepers⟩ :=
          ih hinner
        refine ⟨line :: attributes, closing, more, rfl, ?_, ?_, hclosing,
          List.forall_mem_cons.mpr ⟨hbrace, hbraces⟩, List.forall_mem_cons.mpr ⟨hdeeper, hdeepers⟩⟩
        · rw [htaken, List.length_cons]
        · rw [hfragments, fragmentsOf, fragmentsOf, fragmentsOf, ← List.filter_append, ← List.map_append]
          rfl
      rw [blockAttributes?] at h
      split at h
      · rename_i hb
        obtain ⟨inner, hinner, heq⟩ := Option.map_eq_some_iff.mp h
        cases heq
        have hnil : line.stripped = [] := List.isEmpty_iff.mp hb
        have hfragment : fragmentsOf [line] = [] := by
          rw [fragmentsOf, List.map_singleton, hnil]
          rfl
        obtain ⟨attributes, closing, more, hlines, htaken, hfragments, hrest⟩ :=
          hlater hinner (by simp [hnil]) fun hnot => by rw [hb] at hnot; cases hnot
        rw [hfragment, List.nil_append] at hfragments
        exact ⟨attributes, closing, more, hlines, htaken, hfragments, hrest⟩
      · split at h
        · rename_i hbrace
          cases h
          exact ⟨[], line, rest, rfl, rfl, rfl, hbrace, List.forall_mem_nil _, List.forall_mem_nil _⟩
        · rename_i hbrace
          split at h
          · cases h
          · rename_i hdeeper
            obtain ⟨inner, hinner, heq⟩ := Option.map_eq_some_iff.mp h
            cases heq
            obtain ⟨attributes, closing, more, hlines, htaken, hfragments, hrest⟩ :=
              hlater hinner hbrace fun _ => Nat.lt_of_not_le hdeeper
            refine ⟨attributes, closing, more, hlines, htaken, ?_, hrest⟩
            rw [← hfragments]
            by_cases hempty : withoutComma line.stripped = [] <;> simp [fragmentsOf, hempty]

theorem elementOf_of_blockOpener? {element : Text} (h : blockOpener? line.stripped = some element) :
    elementOf line = element ∧ line.stripped.getLast? = some '{' := by
  obtain ⟨c, rest, hhead, _, hc, helement⟩ := element_of_blockOpener? h
  obtain ⟨hopens, htrim⟩ := Option.ite_none_right_eq_some.mp h
  have hbrace := of_decide_eq_true (Bool.and_eq_true_iff.mp hopens).2
  have hstripped : line.stripped = line.stripped.takeWhile isOpenerChar ++ ['{'] := by
    rw [← hbrace, List.takeWhile_append_dropWhile]
  have hfront : line.stripped.dropLast = line.stripped.takeWhile isOpenerChar := by
    rw [hstripped, List.dropLast_concat, ← hstripped]
  refine ⟨?_, by rw [hstripped, List.getLast?_concat]⟩
  -- The content starts with the sigil of the element, so that nothing is trimmed in front of it.
  have hstart : Text.trimStart (line.stripped.takeWhile isOpenerChar)
      = line.stripped.takeWhile isOpenerChar := by
    cases hfirst : line.stripped.takeWhile isOpenerChar with
    | nil =>
        rw [hfirst] at htrim
        rw [helement] at htrim
        cases htrim
    | cons d ds =>
        rw [hstripped, hfirst] at hhead
        obtain rfl : d = c := by simpa using hhead
        exact List.dropWhile_cons_of_neg (by simp [hc])
  rw [elementOf, hfront, Text.trim, hstart]
  exact Option.some.inj htrim

/-! ## The block of one statement -/

/-- The lines that the statement that starts at `line` is made of. -/
def blockOf (line : Line) (following : List Line) : List Line :=
  line :: following.take ((first line following).span - 1)

theorem length_blockOf (line : Line) (following : List Line) :
    (blockOf line following).length = (first line following).span := by
  have hle := span_first_le line following
  have hpos := one_le_span_first line following
  rw [blockOf, List.length_cons, List.length_take]
  omega

theorem blockOf_append_linesAfter (line : Line) (following : List Line) :
    blockOf line following ++ linesAfter line following = line :: following := by
  rw [blockOf, linesAfter, List.cons_append, List.take_append_drop]

theorem blockOf_eq_singleton_iff {other : Line} :
    blockOf line following = [other] ↔ line = other ∧ (first line following).span = 1 := by
  have hlength := length_blockOf line following
  constructor
  · intro h
    rw [h] at hlength
    exact ⟨(List.cons.inj h).1, hlength.symm⟩
  · rintro ⟨rfl, hspan⟩
    rw [blockOf, hspan]
    rfl

/-- The folded text of an attribute block has the element, the fragments and the contents in their order. -/
theorem hasInOrder_block {statement : Statement} (h : block? line following = some statement) :
    Text.HasInOrder (keptOf (line :: following.take (statement.span - 1))) statement.text := by
  obtain ⟨element, fragments, taken, hopener, hattributes, htext, hspan⟩ := of_block? h
  obtain ⟨helement, hlast⟩ := elementOf_of_blockOpener? hopener
  obtain ⟨attributes, closing, rest, rfl, rfl, rfl, hclosing, hbraces, _⟩ :=
    of_blockAttributes? hattributes
  have hdrop : (attributes ++ closing :: rest).drop (attributes.length + 1) = rest := by simp
  rw [hdrop] at htext hspan
  have htake : (attributes ++ closing :: rest).take (statement.span - 1)
      = attributes ++ closing :: rest.take (blockContent line.indent rest).2 := by
    have hcount : statement.span - 1 = attributes.length + ((blockContent line.indent rest).2 + 1) := by
      omega
    rw [hcount, List.take_length_add_append, List.take_succ_cons]
  have hkept : keptOf (line :: (attributes ++ closing :: rest.take (blockContent line.indent rest).2))
      = [element] ++ (attributes.map (withoutComma ·.stripped) ++ (blockContent line.indent rest).1) := by
    let isOther (next : Line) : Bool := next.stripped ≠ ['}']
    have hstop : isOther closing = false := by simp [isOther, hclosing]
    have hall : ∀ next ∈ attributes, isOther next = true := by simpa [isOther] using hbraces
    rw [keptOf, if_pos hlast, helement, takeWhile_append_cons hstop, List.takeWhile_eq_self_iff.mpr hall,
      dropWhile_append_cons hstop, List.dropWhile_eq_nil_iff.mpr hall, blockContent_fst_eq]
    rfl
  have hfragments : Text.HasInOrder (attributes.map (withoutComma ·.stripped))
      (Text.join ", ".toList (fragmentsOf attributes)) := .of_filter (.join _ _)
  rw [htake, hkept, htext]
  refine .append_left _ (.append (.singleton List.infix_rfl) (.append ?_ (.contents _)))
  exact (hfragments.append_left _).append_right _

/-- The folded text of a continued output has the contents of its lines in their order. -/
theorem hasInOrder_continued (h : isContinued line.stripped = true) (following : List Line) :
    Text.HasInOrder (keptOf (line :: following.take ((continued line following).span - 1)))
      (continued line following).text := by
  have hlast : line.stripped.getLast? ≠ some '{' := by
    rw [of_decide_eq_true (Bool.and_eq_true_iff.mp h).2]
    decide
  have hcontent : line.stripped <:+: Text.trimEnd line.text := by
    rw [Line.stripped, ← Text.trim_trimEnd]
    exact Text.trim_infix_self _
  rw [keptOf, if_neg hlast, contentsOf, List.filter_cons_of_pos (by simp [not_isBlank_of_continued h]),
    span_continued, Nat.add_sub_cancel_left, List.map_cons, ← absorb_fst_eq, text_continued]
  exact .append (.singleton hcontent) (.contents _)

/-- The ways in which a statement is made: from an attribute block, a continued output, or one line. -/
theorem first_cases (line : Line) (following : List Line) :
    block? line following = some (first line following)
      ∨ isContinued line.stripped = true ∧ first line following = continued line following
      ∨ block? line following = none ∧ isContinued line.stripped = false
        ∧ first line following = single line := by
  cases hblock : block? line following with
  | some statement => exact .inl (by simp [first, hblock])
  | none => cases hcontinued : isContinued line.stripped <;> simp [first, hblock, hcontinued]

theorem hasInOrder_first (h : 2 ≤ (first line following).span) :
    Text.HasInOrder (keptOf (blockOf line following)) (first line following).text := by
  rcases first_cases line following with hblock | ⟨hcontinued, hfirst⟩ | ⟨_, _, hfirst⟩
  · exact hasInOrder_block hblock
  · rw [blockOf, hfirst]
    exact hasInOrder_continued hcontinued following
  · rw [hfirst] at h
    exact absurd h (by simp [single])

theorem trimEnd_text_first (h : (first line following).span = 1) :
    Text.trimEnd (first line following).text = Text.trimEnd line.text := by
  rcases first_cases line following with hblock | ⟨_, hfirst⟩ | ⟨_, _, hfirst⟩
  · obtain ⟨_, _, taken, _, hattributes, _, hspan⟩ := of_block? hblock
    obtain ⟨_, _, _, _, htaken, _⟩ := of_blockAttributes? hattributes
    omega
  · have hnone : (absorb (fun next => line.indent < next.indent) following).2 = 0 := by
      rw [hfirst, span_continued] at h
      omega
    rw [hfirst, text_continued, absorb_fst_eq, hnone]
    exact (congrArg Text.trimEnd (List.append_nil _)).trans (Text.trimEnd_trimEnd line.text)
  · rw [hfirst]
    rfl

theorem isMadeOf_first (line : Line) (following : List Line) :
    (first line following).IsMadeOf (blockOf line following) := by
  cases hb : line.isBlank with
  | true =>
      have hfirst := first_of_isBlank following hb
      have hblock : blockOf line following = [line] :=
        blockOf_eq_singleton_iff.mpr ⟨rfl, by rw [hfirst]; rfl⟩
      rw [hblock, hfirst]
      exact
        { ne_nil := List.cons_ne_nil _ _
          span_eq := rfl
          indentation_eq := rfl
          indent_eq := rfl
          length_indentation := rfl
          isBlank_iff := ⟨fun _ => ⟨line, rfl, hb⟩, fun _ => hb⟩
          text_of_single := fun other heq => (List.cons.inj heq).1 ▸ rfl
          text_of_folded := fun hlength => absurd hlength (by simp) }
  | false =>
      exact
        { ne_nil := List.cons_ne_nil _ _
          span_eq := (length_blockOf line following).symm
          indentation_eq := congrArg some (indentation_first following hb).symm
          indent_eq := congrArg some (indent_first following hb).symm
          length_indentation := rfl
          isBlank_iff := by
            rw [isBlank_first following hb]
            refine iff_of_false Bool.false_ne_true ?_
            rintro ⟨other, heq, hother⟩
            rw [← (blockOf_eq_singleton_iff.mp heq).1, hb] at hother
            cases hother
          text_of_single := by
            intro other heq
            obtain ⟨rfl, hspan⟩ := blockOf_eq_singleton_iff.mp heq
            exact trimEnd_text_first hspan
          text_of_folded := by
            rw [length_blockOf]
            exact hasInOrder_first }

/-! ## All blocks -/

theorem exists_blocks (lines : List Line) :
    ∃ blocks : List (List Line), blocks.flatten = lines ∧ List.Forall₂ IsMadeOf (ofLines lines) blocks := by
  induction lines using ofLines.induct with
  | case1 => exact ⟨[], rfl, by rw [ofLines]; exact .nil⟩
  | case2 line following ih =>
      obtain ⟨blocks, hflatten, hmade⟩ := ih
      refine ⟨blockOf line following :: blocks, ?_, ?_⟩
      · rw [List.flatten_cons, hflatten, ← linesAfter, blockOf_append_linesAfter]
      · rw [ofLines]
        exact .cons (isMadeOf_first line following) hmade

/--
The lines of a document are cut into blocks, one for each statement and in their order, so that each
statement spans its block and has the indent of its first line. Only a blank line by itself makes a blank
statement; a line by itself keeps its text, but for blanks at its end; and from more lines, a statement
keeps what stands on each of them.
-/
theorem exists_blocks_of_document (document : Text) :
    ∃ blocks : List (List Line), blocks.flatten = Line.ofDocument document
      ∧ List.Forall₂ IsMadeOf (ofDocument document) blocks
      ∧ (∀ statement ∈ ofDocument document, 1 ≤ statement.span)
      ∧ ((ofDocument document).map span).sum = (Line.ofDocument document).length := by
  obtain ⟨blocks, hflatten, hmade⟩ := exists_blocks (Line.ofDocument document)
  have hpos : ∀ statement ∈ ofDocument document, 1 ≤ statement.span :=
    forall_mem_ofLines fun _ line following _ => one_le_span_first line following
  exact ⟨blocks, hflatten, hmade, hpos, sum_span_ofLines _⟩

end Statement

end Haml
