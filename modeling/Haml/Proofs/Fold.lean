import Haml.Code.Keyword
import Haml.Statement.Fold
import Haml.Proofs.Text
import Mathlib.Data.List.TakeWhile
import Mathlib.Tactic.Common

/-!
# Folding and what it leaves alone

Every way to fold lines stops before a line that is not blank, has no indent and is not the brace
that closes a block. Such a line therefore cuts the lines of a document into two parts that are folded
independently. The statement that starts at a line keeps the line's indent and the first character of
its content.
-/

namespace Haml

theorem Line.stripped_ne_nil {line : Line} (h : line.isBlank = false) : line.stripped ≠ [] :=
  List.isEmpty_eq_false_iff.mp h

namespace Statement

variable {accept : Line → Bool} {line : Line} {above below following : List Line}

/-! ## How many lines are taken -/

theorem absorb_snd_le (lines : List Line) : (absorb accept lines).2 ≤ lines.length := by
  induction lines with
  | nil => simp [absorb]
  | cons line rest ih =>
      simp only [absorb]
      split
      · split <;> simp_all
      · split <;> simp_all

theorem blockAttributes?_le {indent : Nat} {fragments : List Text} {taken : Nat}
    (h : blockAttributes? indent following = some (fragments, taken)) : taken ≤ following.length := by
  induction following generalizing fragments taken with
  | nil => simp [blockAttributes?] at h
  | cons line rest ih =>
      simp only [blockAttributes?] at h
      split at h
      · obtain ⟨⟨inner, n⟩, hrest, heq⟩ := Option.map_eq_some_iff.mp h
        obtain ⟨_, rfl⟩ := Prod.mk.inj heq
        simpa using ih hrest
      · split at h
        · cases h
          simp
        · split at h
          · cases h
          · obtain ⟨⟨inner, n⟩, hrest, heq⟩ := Option.map_eq_some_iff.mp h
            obtain ⟨_, rfl⟩ := Prod.mk.inj heq
            simpa using ih hrest

theorem blockContent_snd_le (indent : Nat) (lines : List Line) :
    (blockContent indent lines).2 ≤ lines.length := by
  unfold blockContent
  split
  · exact absorb_snd_le lines
  · exact Nat.zero_le _

theorem of_block? {statement : Statement} (h : block? line following = some statement) :
    ∃ element fragments taken, blockOpener? line.stripped = some element
      ∧ blockAttributes? line.indent following = some (fragments, taken)
      ∧ statement.text = line.text.takeWhile Text.isBlank ++ (element
          ++ ("\x7b ".toList ++ Text.join ", ".toList fragments ++ " \x7d".toList
            ++ (blockContent line.indent (following.drop taken)).1.flatMap (' ' :: ·)))
      ∧ statement.span = 1 + taken + (blockContent line.indent (following.drop taken)).2 := by
  unfold block? at h
  split at h
  · cases h
  · rename_i element helement
    split at h
    · cases h
    · rename_i fragments taken hattributes
      cases h
      refine ⟨element, fragments, taken, helement, hattributes, ?_, rfl⟩
      simp only [folded, List.append_assoc]
      rfl

theorem text_continued (line : Line) (following : List Line) :
    (continued line following).text = Text.trimEnd line.text
      ++ (absorb (fun next => line.indent < next.indent) following).1.flatMap (' ' :: ·) := rfl

theorem span_continued (line : Line) (following : List Line) :
    (continued line following).span
      = 1 + (absorb (fun next => line.indent < next.indent) following).2 := rfl

theorem span_first_le (line : Line) (following : List Line) :
    (first line following).span ≤ following.length + 1 := by
  unfold first
  split
  · rename_i statement hblock
    obtain ⟨_, _, taken, _, hattributes, _, hspan⟩ := of_block? hblock
    have htaken := blockAttributes?_le hattributes
    have hmore := blockContent_snd_le line.indent (following.drop taken)
    rw [List.length_drop] at hmore
    omega
  · split
    · have htaken : (absorb (fun next => line.indent < next.indent) following).2 ≤ following.length :=
        absorb_snd_le following
      rw [span_continued]
      omega
    · simp [single]

theorem one_le_span_first (line : Line) (following : List Line) :
    1 ≤ (first line following).span := by
  unfold first
  split
  · rename_i statement hblock
    obtain ⟨_, _, _, _, _, _, hspan⟩ := of_block? hblock
    omega
  · split
    · rw [span_continued]
      omega
    · exact Nat.le_refl 1

/-! ## What a statement keeps of its first line -/

theorem head_of_startsElement {content : Text} (h : startsElement content = true) :
    ∃ c cs, content = c :: cs ∧ (c = '%' ∨ c = '.' ∨ c = '#') := by
  unfold startsElement at h
  split at h
  all_goals first | exact ⟨_, _, rfl, by simp⟩ | cases h

/-- A line that opens an attribute block starts with the sigil of an element, which its element keeps. -/
theorem element_of_blockOpener? {content element : Text} (h : blockOpener? content = some element) :
    ∃ c rest, content.head? = some c ∧ c ≠ '-' ∧ Text.isBlank c = false ∧ element = c :: rest := by
  unfold blockOpener? at h
  split at h
  · rename_i hopens
    obtain ⟨hstart, _⟩ := Bool.and_eq_true_iff.mp hopens
    obtain ⟨c, cs, rfl, hc⟩ := head_of_startsElement hstart
    obtain ⟨hopener, hdash, hblank⟩ :
        isOpenerChar c = true ∧ c ≠ '-' ∧ Text.isBlank c = false := by
      rcases hc with rfl | rfl | rfl <;> decide
    refine ⟨c, Text.trimEnd (cs.takeWhile isOpenerChar), rfl, hdash, hblank, ?_⟩
    rw [List.takeWhile_cons_of_pos hopener, Text.trimEnd_cons hblank] at h
    exact (Option.some.inj h).symm
  · cases h

/--
The statement that starts at a line with content has the line's blanks and first character. It has
all of the line's text unless it is folded, and then it is no code.
-/
theorem text_first (h : line.isBlank = false) (following : List Line) :
    ∃ c tail, line.stripped.head? = some c ∧ Text.isBlank c = false
      ∧ (first line following).text = line.text.takeWhile Text.isBlank ++ c :: tail
      ∧ ((first line following).text = line.text ∨ c ≠ '-') := by
  obtain ⟨c, cs, hstripped⟩ : ∃ c cs, line.stripped = c :: cs :=
    List.exists_cons_of_ne_nil (Line.stripped_ne_nil h)
  obtain ⟨tail, htail, hc⟩ := Text.eq_append_of_trim hstripped
  have htext : line.text = line.text.takeWhile Text.isBlank ++ c :: tail := by
    rw [← htail, Text.takeWhile_append_trimStart]
  unfold first
  split
  · rename_i statement hblock
    obtain ⟨_, fragments, taken, helement, _, htext', _⟩ := of_block? hblock
    obtain ⟨d, rest, hd, hdash, hblank, rfl⟩ := element_of_blockOpener? helement
    exact ⟨d, _, hd, hblank, htext', .inr hdash⟩
  · split
    · rename_i hcontinued
      obtain ⟨hhead, _⟩ := Bool.and_eq_true_iff.mp hcontinued
      obtain rfl : c = '=' := by simpa [hstripped] using hhead
      have htrim : Text.trimEnd line.text
          = line.text.takeWhile Text.isBlank ++ '=' :: Text.trimEnd tail := by
        rw [← Text.trimEnd_append_cons hc, ← htext]
      have htext' := text_continued line following
      rw [htrim, List.append_assoc, List.cons_append] at htext'
      exact ⟨'=', _, by rw [hstripped]; rfl, hc, htext', .inr (by decide)⟩
    · exact ⟨c, tail, by rw [hstripped]; rfl, hc, htext, .inl rfl⟩

variable (following)

/-- A line that opens no attribute block and is no continued output is a statement by itself. -/
theorem first_eq_single (hopener : blockOpener? line.stripped = none)
    (hcontinued : isContinued line.stripped = false) : first line following = single line := by
  simp [first, block?, hopener, hcontinued]

theorem first_of_isBlank (h : line.isBlank = true) : first line following = single line := by
  have hs : line.stripped = [] := List.isEmpty_iff.mp h
  exact first_eq_single following (by rw [hs]; rfl) (by rw [hs]; rfl)

theorem isBlank_first (h : line.isBlank = false) : (first line following).isBlank = false := by
  obtain ⟨c, tail, _, hc, htext, _⟩ := text_first h following
  have hws : ∀ b ∈ line.text.takeWhile Text.isBlank, Text.isBlank b = true :=
    fun _ hb => List.mem_takeWhile_imp hb
  simp [isBlank, stripped, htext, Text.trim_append_cons hws hc]

theorem indentation_first (h : line.isBlank = false) :
    (first line following).indentation = Text.indentation line.text := by
  obtain ⟨c, tail, hhead, hc, htext, _⟩ := text_first h following
  obtain ⟨cs, hstripped⟩ : ∃ cs, line.stripped = c :: cs := List.head?_eq_some_iff.mp hhead
  obtain ⟨tail', htail', _⟩ := Text.eq_append_of_trim hstripped
  have hline : line.text = line.text.takeWhile Text.isBlank ++ c :: tail' := by
    rw [← htail', Text.takeWhile_append_trimStart]
  rw [indentation, htext, Text.indentation_append_cons hc, hline, Text.indentation_append_cons hc,
    ← hline]

theorem indent_first (h : line.isBlank = false) : (first line following).indent = line.indent :=
  congrArg List.length (indentation_first following h)

theorem head?_stripped_first (h : line.isBlank = false) :
    (first line following).stripped.head? = line.stripped.head? := by
  obtain ⟨c, tail, hhead, hc, htext, _⟩ := text_first h following
  have hws : ∀ b ∈ line.text.takeWhile Text.isBlank, Text.isBlank b = true :=
    fun _ hb => List.mem_takeWhile_imp hb
  rw [stripped, htext, Text.trim_append_cons hws hc, hhead]
  rfl

theorem isContinuation_first (h : line.isBlank = false) :
    Code.isContinuation (first line following).stripped = Code.isContinuation line.stripped := by
  obtain ⟨c, tail, hhead, hc, htext, hkeeps⟩ := text_first h following
  rcases hkeeps with heq | hdash
  · rw [stripped, heq, Line.stripped]
  · have hws : ∀ b ∈ line.text.takeWhile Text.isBlank, Text.isBlank b = true :=
      fun _ hb => List.mem_takeWhile_imp hb
    have hnot : ∀ rest, Code.isContinuation (c :: rest) = false := by
      intro rest
      simp [Code.isContinuation, hdash]
    obtain ⟨cs, hstripped⟩ : ∃ cs, line.stripped = c :: cs := List.head?_eq_some_iff.mp hhead
    rw [stripped, htext, Text.trim_append_cons hws hc, hstripped, hnot, hnot]

/-! ## Lines that no fold takes -/

/-- A line that is not blank, has no indent, and is not a closing brace. -/
structure IsBase (line : Line) : Prop where
  not_isBlank : line.isBlank = false
  indent_eq : line.indent = 0
  ne_brace : line.stripped ≠ ['}']

theorem absorb_append (hb : line.isBlank = false) (ha : accept line = false) :
    absorb accept (above ++ line :: below) = absorb accept above := by
  induction above with
  | nil => simp [absorb, hb, ha]
  | cons first rest ih => simp only [List.cons_append, absorb, ih]

theorem blockAttributes?_append (h : IsBase line) (indent : Nat) :
    blockAttributes? indent (above ++ line :: below) = blockAttributes? indent above := by
  induction above with
  | nil => simp [blockAttributes?, h.not_isBlank, h.ne_brace, h.indent_eq]
  | cons first rest ih => simp only [List.cons_append, blockAttributes?, ih]

theorem absorb_of_isBlank (h : ∀ line ∈ above, line.isBlank = true) : absorb accept above = ([], 0) := by
  induction above with
  | nil => rfl
  | cons first rest ih =>
      obtain ⟨hfirst, hrest⟩ := List.forall_mem_cons.mp h
      simp [absorb, hfirst, ih hrest]

theorem blockContent_append (h : IsBase line) (indent : Nat) :
    blockContent indent (above ++ line :: below) = blockContent indent above := by
  unfold blockContent
  rw [List.find?_append]
  cases hfind : above.find? (!·.isBlank) with
  | some found =>
      simp only [Option.some_or]
      exact absorb_append h.not_isBlank (by simp [h.indent_eq])
  | none =>
      have hblank : ∀ line ∈ above, line.isBlank = true := by simpa using hfind
      simp only [Option.none_or, List.find?_cons, h.not_isBlank, Bool.not_false]
      rw [absorb_append h.not_isBlank (by simp [h.indent_eq]), absorb_of_isBlank hblank]

theorem block?_append (h : IsBase line) (opener : Line) :
    block? opener (above ++ line :: below) = block? opener above := by
  unfold block?
  rw [blockAttributes?_append h]
  cases blockOpener? opener.stripped with
  | none => rfl
  | some element =>
      cases hattributes : blockAttributes? opener.indent above with
      | none => rfl
      | some result =>
          obtain ⟨fragments, taken⟩ := result
          simp only
          rw [List.drop_append_of_le_length (blockAttributes?_le hattributes),
            blockContent_append h]

theorem continued_append (h : IsBase line) (output : Line) :
    continued output (above ++ line :: below) = continued output above := by
  unfold continued
  rw [absorb_append h.not_isBlank (by simp [h.indent_eq])]

theorem first_append (h : IsBase line) (start : Line) :
    first start (above ++ line :: below) = first start above := by
  unfold first
  rw [block?_append h, continued_append h]

/-- A base line cuts the statements of a document in two. -/
theorem ofLines_append (h : IsBase line) (above : List Line) :
    ofLines (above ++ line :: below) = ofLines above ++ ofLines (line :: below) := by
  induction above using ofLines.induct with
  | case1 => rw [ofLines.eq_1]; rfl
  | case2 start following ih =>
      have hspan := span_first_le start following
      rw [List.cons_append, ofLines, first_append h,
        List.drop_append_of_le_length (by omega), ih, ← List.cons_append, ← ofLines]

end Statement

end Haml
