import Haml.Proofs.Lines

/-!
# Folded statements

What is taken by a fold, and what the folded text looks like. The text of an attribute block is the
element, its attributes in braces, and the contents of the lines of text below; nothing of it is lost by
trimming. A fold changes the text of its first line, but for an output that takes no line.
-/

namespace Haml

namespace Statement

variable {accept : Line → Bool} {line : Line} {lines following : List Line}

/-! ## Absorbed lines -/

theorem absorb_fst_eq (lines : List Line) :
    (absorb accept lines).1
      = ((lines.take (absorb accept lines).2).filter (!·.isBlank)).map Line.stripped := by
  induction lines with
  | nil => rfl
  | cons line rest ih =>
      simp only [absorb]
      cases hb : line.isBlank with
      | true =>
          cases hrest : absorb accept rest with
          | mk contents taken =>
              rw [hrest] at ih
              cases taken with
              | zero => rfl
              | succ taken => simpa [hb] using ih
      | false =>
          cases accept line with
          | true => simpa [hb] using ih
          | false => rfl

theorem absorb_snd_of_fst_eq_nil (h : (absorb accept lines).1 = []) : (absorb accept lines).2 = 0 := by
  induction lines with
  | nil => rfl
  | cons line rest ih =>
      simp only [absorb] at h ⊢
      cases hb : line.isBlank with
      | true =>
          simp only [hb] at h ⊢
          cases hrest : absorb accept rest with
          | mk contents taken =>
              rw [hrest] at ih h
              cases taken with
              | zero => rfl
              | succ taken => exact absurd (ih h) (Nat.succ_ne_zero taken)
      | false =>
          simp only [hb] at h ⊢
          cases ha : accept line with
          | true => simp [ha] at h
          | false => rfl

/-- What is absorbed stands on the lines up to the first one that is neither blank nor accepted. -/
theorem absorb_fst_eq_takeWhile (accept : Line → Bool) (lines : List Line) :
    (absorb accept lines).1
      = ((lines.takeWhile fun line => line.isBlank || accept line).filter (!·.isBlank)).map Line.stripped := by
  induction lines with
  | nil => rfl
  | cons line rest ih =>
      cases hb : line.isBlank with
      | true =>
          have hrest : (absorb accept (line :: rest)).1 = (absorb accept rest).1 := by
            simp only [absorb, hb, if_true]
            cases htaken : absorb accept rest with
            | mk contents taken =>
                cases taken with
                | zero =>
                    have hnone : (absorb accept rest).1 = _ := absorb_fst_eq rest
                    rw [htaken] at hnone
                    exact hnone.symm
                | succ taken => rfl
          rw [hrest, ih, List.takeWhile_cons_of_pos (by simp [hb]), List.filter_cons_of_neg (by simp [hb])]
      | false => cases ha : accept line <;> simp [absorb, hb, ha, ih]

theorem absorb_snd_eq_zero_iff :
    (absorb accept lines).2 = 0
      ↔ ∀ next ∈ lines.takeWhile fun line => line.isBlank || accept line, next.isBlank = true := by
  have hnil : (absorb accept lines).1 = []
      ↔ ∀ next ∈ lines.takeWhile fun line => line.isBlank || accept line, next.isBlank = true := by
    simp [absorb_fst_eq_takeWhile]
  rw [← hnil]
  refine ⟨fun hzero => ?_, absorb_snd_of_fst_eq_nil⟩
  rw [absorb_fst_eq, hzero]
  rfl

/-- Blank and accepted lines before an accepted one are taken with it. -/
theorem absorb_append_accepted {above : List Line}
    (habove : ∀ next ∈ above, next.isBlank = false → accept next = true) (hb : line.isBlank = false)
    (ha : accept line = true) (below : List Line) :
    absorb accept (above ++ line :: below)
      = (((above ++ [line]).filter (!·.isBlank)).map Line.stripped ++ (absorb accept below).1,
          (absorb accept below).2 + above.length + 1) := by
  induction above with
  | nil => simp [absorb, hb, ha]
  | cons first rest ih =>
      obtain ⟨hfirst, hrest⟩ := List.forall_mem_cons.mp habove
      cases hblank : first.isBlank with
      | true => simp [absorb, hblank, ih hrest, Nat.add_assoc]
      | false => simp [absorb, hblank, hfirst hblank, ih hrest, Nat.add_assoc]

/-- What is absorbed ends before a line that is not accepted, blank lines aside. -/
theorem accept_eq_false_of_find? (accept : Line → Bool) (lines : List Line) :
    ∀ next ∈ (lines.drop (absorb accept lines).2).find? (!·.isBlank), accept next = false := by
  induction lines with
  | nil => exact fun _ h => by cases h
  | cons line rest ih =>
      cases hb : line.isBlank with
      | true =>
          simp only [absorb, hb, if_true]
          cases htaken : absorb accept rest with
          | mk contents taken =>
              rw [htaken] at ih
              cases taken with
              | zero => simpa [hb] using ih
              | succ taken => exact ih
      | false =>
          cases ha : accept line with
          | true => simpa [absorb, hb, ha] using ih
          | false => simp [absorb, hb, ha]

theorem isBlank_getLast?_contents {contents : List Text}
    (h : ∀ content ∈ contents, ∃ line : Line, line.isBlank = false ∧ content = line.stripped) :
    ∀ c ∈ (contents.flatMap (' ' :: ·)).getLast?, Text.isBlank c = false := by
  rcases List.eq_nil_or_concat contents with rfl | ⟨before, content, rfl⟩
  · exact fun c hc => by cases hc
  · obtain ⟨line, hb, rfl⟩ := h content (by simp)
    have hne := Line.stripped_ne_nil hb
    intro c hc
    refine Text.isBlank_getLast?_trim line.text c ?_
    rw [List.concat_eq_append, List.flatMap_append, List.getLast?_append] at hc
    simp only [List.flatMap_cons, List.flatMap_nil, List.append_nil,
      List.getLast?_cons_of_ne_nil hne] at hc
    cases hlast : line.stripped.getLast? with
    | none => exact absurd (List.getLast?_eq_none_iff.mp hlast) hne
    | some d =>
        rw [hlast] at hc
        exact hlast ▸ hc

theorem isBlank_getLast?_absorb (accept : Line → Bool) (lines : List Line) :
    ∀ c ∈ ((absorb accept lines).1.flatMap (' ' :: ·)).getLast?, Text.isBlank c = false :=
  isBlank_getLast?_contents fun _ hcontent =>
    let ⟨line, _, hb, _, heq⟩ := of_mem_absorb hcontent
    ⟨line, hb, heq⟩

theorem isBlank_getLast?_blockContent (indent : Nat) (lines : List Line) :
    ∀ c ∈ ((blockContent indent lines).1.flatMap (' ' :: ·)).getLast?, Text.isBlank c = false := by
  unfold blockContent
  split
  · exact isBlank_getLast?_absorb _ lines
  · exact fun c hc => by cases hc

/-! ## Attribute blocks -/

variable {element : Text} {fragments : List Text} {taken : Nat}

theorem stripped_of_block? {statement : Statement} (hopener : blockOpener? line.stripped = some element)
    (hattributes : blockAttributes? line.indent following = some (fragments, taken))
    (h : block? line following = some statement) :
    statement.stripped = element ++ '\x7b' :: ' ' :: (Text.join ", ".toList fragments ++ ' ' :: '\x7d' ::
      (blockContent line.indent (following.drop taken)).1.flatMap (' ' :: ·)) := by
  obtain ⟨_, _, _, hopener', hattributes', htext, _⟩ := of_block? h
  cases hopener.symm.trans hopener'
  cases hattributes.symm.trans hattributes'
  obtain ⟨c, rest, _, _, hc, rfl⟩ := element_of_blockOpener? hopener
  have hblanks : ∀ b ∈ line.text.takeWhile Text.isBlank, Text.isBlank b = true :=
    fun _ hb => List.mem_takeWhile_imp hb
  have hbrace : Text.isBlank '\x7d' = false := by decide
  have hcontents := Text.trimEnd_eq_self
    (isBlank_getLast?_blockContent line.indent (following.drop taken))
  have htail := Text.trimEnd_append_cons hbrace
    (rest ++ '\x7b' :: ' ' :: (Text.join ", ".toList fragments ++ [' ']))
    ((blockContent line.indent (following.drop taken)).1.flatMap (' ' :: ·))
  rw [hcontents] at htail
  rw [stripped, htext, List.cons_append, Text.trim_append_cons hblanks hc]
  simpa using htail

theorem isOpenerChar_of_blockOpener? (h : blockOpener? line.stripped = some element) :
    ∀ c ∈ element, isOpenerChar c = true := by
  obtain ⟨_, helement⟩ := Option.ite_none_right_eq_some.mp h
  cases helement
  exact fun c hc => List.mem_takeWhile_imp ((Text.trimEnd_prefix_self _).mem hc)

/-- The content of an attribute block goes on behind its open brace, and so opens no other block. -/
theorem blockOpener?_of_block? {statement : Statement} (h : block? line following = some statement) :
    blockOpener? statement.stripped = none := by
  obtain ⟨element, fragments, taken, hopener, hattributes, _⟩ := of_block? h
  have hnot : isOpenerChar '\x7b' = false := by decide
  rw [stripped_of_block? hopener hattributes h, blockOpener?, dropWhile_append_cons hnot,
    List.dropWhile_eq_nil_iff.mpr (isOpenerChar_of_blockOpener? hopener)]
  simp

theorem text_block?_ne {statement : Statement} (h : block? line following = some statement) :
    statement.text ≠ line.text := by
  intro heq
  obtain ⟨element, _, _, hopener, _⟩ := of_block? h
  have hnone := blockOpener?_of_block? h
  rw [stripped, heq] at hnone
  exact absurd (hopener.symm.trans hnone) (by simp)

/-! ## Statements with the text of their line -/

theorem text_continued_eq_iff :
    (continued line following).text = line.text ↔ Text.trimEnd line.text = line.text
      ∧ (absorb (fun next => line.indent < next.indent) following).1 = [] := by
  rw [text_continued]
  constructor
  · intro h
    have hlast := isBlank_getLast?_absorb (fun next => line.indent < next.indent) following
    have hnil : (absorb (fun next => line.indent < next.indent) following).1.flatMap (' ' :: ·)
        = [] := by
      by_contra hne
      -- A text that ends with a content is not changed by trimming, so nothing could be behind it.
      have htrim : Text.trimEnd line.text = line.text := by
        refine Text.trimEnd_eq_self fun c hc => hlast c ?_
        rwa [← h, List.getLast?_append_of_ne_nil _ hne] at hc
      rw [htrim] at h
      exact hne (List.append_right_eq_self.mp h)
    rw [hnil, List.append_nil] at h
    refine ⟨h, ?_⟩
    cases hcontents : (absorb (fun next => line.indent < next.indent) following).1 with
    | nil => rfl
    | cons content rest => simp [hcontents] at hnil
  · rintro ⟨htrim, hcontents⟩
    rw [htrim, hcontents]
    exact List.append_nil _

/--
A statement has the text of its line unless it is folded from an attribute block, or it is an output
that goes on over deeper lines or has blanks behind its comma.
-/
theorem text_first_eq_iff :
    (first line following).text = line.text ↔ block? line following = none
      ∧ (isContinued line.stripped = true → Text.trimEnd line.text = line.text
        ∧ (absorb (fun next => line.indent < next.indent) following).1 = []) := by
  unfold first
  split
  · rename_i statement hblock
    simp [hblock, text_block?_ne hblock]
  · rename_i hblock
    split
    · rename_i hcontinued
      simp [hblock, hcontinued, text_continued_eq_iff]
    · rename_i hcontinued
      simp [hblock, hcontinued, single]

theorem span_of_text_first (h : (first line following).text = line.text) :
    (first line following).span = 1 := by
  obtain ⟨hblock, hcontinued⟩ := text_first_eq_iff.mp h
  unfold first
  rw [hblock]
  simp only
  split
  · rename_i hc
    rw [span_continued, absorb_snd_of_fst_eq_nil (hcontinued hc).2]
  · rfl

end Statement

/-! ## Lines under an indent -/

/-- Whether a line belongs to what is under a line of the given indent: a blank one, or a deeper one. -/
def Line.isUnder (indent : Nat) (line : Line) : Bool := line.isBlank || indent < line.indent

namespace Statement

def isUnder (indent : Nat) (statement : Statement) : Bool :=
  statement.isBlank || indent < statement.indent

theorem isUnder_first (indent : Nat) (line : Line) (following : List Line) :
    (first line following).isUnder indent = line.isUnder indent := by
  cases hb : line.isBlank with
  | true => rw [first_of_isBlank following hb]; rfl
  | false =>
      rw [isUnder, isBlank_first following hb, indent_first following hb, Line.isUnder, hb]

end Statement

end Haml
