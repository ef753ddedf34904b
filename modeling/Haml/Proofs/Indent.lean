import Haml.Proofs.Lines
import Mathlib.Order.Monotone.Basic

/-!
# Other indents

A function on widths changes the leading spaces of every line that has content; blank lines stay as
they are. If the function is strictly increasing and no line is indented with tabs, every comparison
of indents comes out as before. The lines are then folded into the same statements, which have the new
indents.
-/

namespace Haml

variable {f : Nat → Nat}

theorem find?_map_of_invariant {α : Type} {p : α → Bool} {g : α → α} (h : ∀ a, p (g a) = p a)
    (l : List α) : (l.map g).find? p = (l.find? p).map g := by
  rw [List.find?_map]
  exact congrArg (fun q => (l.find? q).map g) (funext h)

/-! ## Texts -/

namespace Text

/-- Blanks with the width of their leading spaces changed by `f`. -/
def reindentBlanks (f : Nat → Nat) (blanks : Text) : Text :=
  spaces (f (blanks.takeWhile (· = ' ')).length) ++ blanks.dropWhile (· = ' ')

/-- The text with the width of its leading spaces changed by `f`; a blank text stays as it is. -/
def reindent (f : Nat → Nat) (s : Text) : Text :=
  if (trim s).isEmpty then s
  else spaces (f (s.takeWhile (· = ' ')).length) ++ s.dropWhile (· = ' ')

/-- A text with content is blanks and a text that starts with content. -/
theorem exists_blanks {s : Text} (h : trim s ≠ []) :
    ∃ blanks c tail, (∀ b ∈ blanks, isBlank b = true) ∧ isBlank c = false
      ∧ s = blanks ++ c :: tail := by
  obtain ⟨c, cs, htrim⟩ := List.exists_cons_of_ne_nil h
  obtain ⟨tail, htail, hc⟩ := eq_append_of_trim htrim
  refine ⟨s.takeWhile isBlank, c, tail, fun _ hb => List.mem_takeWhile_imp hb, hc, ?_⟩
  rw [← htail, takeWhile_append_trimStart]

theorem isBlank_of_mem_reindentBlanks {blanks : Text} (h : ∀ b ∈ blanks, isBlank b = true) :
    ∀ b ∈ reindentBlanks f blanks, isBlank b = true := by
  intro b hb
  rcases List.mem_append.mp hb with hspace | hrest
  · rw [List.eq_of_mem_replicate hspace]
    decide
  · exact h b ((List.dropWhile_suffix _).mem hrest)

section

variable {blanks : Text} {c : Char} (hb : ∀ b ∈ blanks, isBlank b = true) (hc : isBlank c = false)

include hb hc

theorem reindent_blanks_append (tail : Text) :
    reindent f (blanks ++ c :: tail) = reindentBlanks f blanks ++ c :: tail := by
  have hspace : decide (c = ' ') = false := by
    refine decide_eq_false ?_
    rintro rfl
    exact absurd hc (by decide)
  have htake := takeWhile_append_cons (p := (· = ' ')) hspace blanks tail
  have hdrop := dropWhile_append_cons (p := (· = ' ')) hspace blanks tail
  rw [reindent, trim_append_cons hb hc, htake, hdrop, reindentBlanks, List.append_assoc]
  rfl

theorem takeWhile_isBlank_append (tail : Text) : (blanks ++ c :: tail).takeWhile isBlank = blanks := by
  rw [takeWhile_append_cons hc, List.takeWhile_eq_self_iff]
  exact hb

end

theorem trim_reindent (s : Text) : trim (reindent f s) = trim s := by
  by_cases h : trim s = []
  · simp [reindent, h]
  · obtain ⟨blanks, c, tail, hb, hc, rfl⟩ := exists_blanks h
    rw [reindent_blanks_append hb hc, trim_append_cons (isBlank_of_mem_reindentBlanks hb) hc,
      trim_append_cons hb hc]

theorem getLast?_reindent (s : Text) : (reindent f s).getLast? = s.getLast? := by
  by_cases h : trim s = []
  · simp [reindent, h]
  · obtain ⟨blanks, c, tail, hb, hc, rfl⟩ := exists_blanks h
    rw [reindent_blanks_append hb hc, List.getLast?_append, List.getLast?_append]
    cases hlast : (c :: tail).getLast? with
    | none => cases List.getLast?_eq_none_iff.mp hlast
    | some d => rfl

theorem takeWhile_reindent_append {s : Text} (hs : trim s ≠ []) {c : Char} (hc : isBlank c = false)
    (tail : Text) :
    (reindent f s).takeWhile isBlank ++ c :: tail = reindent f (s.takeWhile isBlank ++ c :: tail) := by
  obtain ⟨blanks, d, rest, hb, hd, rfl⟩ := exists_blanks hs
  rw [reindent_blanks_append hb hd, takeWhile_isBlank_append (isBlank_of_mem_reindentBlanks hb) hd,
    takeWhile_isBlank_append hb hd, reindent_blanks_append hb hc]

theorem trimEnd_reindent_append {s : Text} (hs : trim s ≠ []) (tail : Text) :
    trimEnd (reindent f s) ++ tail = reindent f (trimEnd s ++ tail) := by
  obtain ⟨blanks, c, rest, hb, hc, rfl⟩ := exists_blanks hs
  rw [reindent_blanks_append hb hc, trimEnd_append_cons hc, trimEnd_append_cons hc, List.append_assoc,
    List.append_assoc, List.cons_append, reindent_blanks_append hb hc]

/-- Blanks behind a text have no influence on its indent. -/
theorem reindent_append_blanks (s : Text) {blanks : Text} (h : ∀ b ∈ blanks, isBlank b = true) :
    reindent f (s ++ blanks) = reindent f s ++ blanks := by
  by_cases hs : trim s = []
  · have hall : trim (s ++ blanks) = [] :=
      trim_eq_nil_iff.mpr (List.forall_mem_append.mpr ⟨trim_eq_nil_iff.mp hs, h⟩)
    simp [reindent, hs, hall]
  · obtain ⟨before, c, tail, hb, hc, rfl⟩ := exists_blanks hs
    rw [List.append_assoc, List.cons_append, reindent_blanks_append hb hc,
      reindent_blanks_append hb hc, List.append_assoc, List.cons_append]

theorem newline_notMem_reindent {s : Text} (h : '\n' ∉ s) : '\n' ∉ reindent f s := by
  unfold reindent
  split
  · exact h
  · intro hmem
    rcases List.mem_append.mp hmem with hspace | hrest
    · cases List.eq_of_mem_replicate hspace
    · exact h ((List.dropWhile_suffix _).mem hrest)

theorem takeWhile_eq_spaces (s : Text) :
    s.takeWhile (· = ' ') = spaces (s.takeWhile (· = ' ')).length :=
  List.eq_replicate_of_mem fun c hc => by simpa using List.mem_takeWhile_imp hc

theorem indentation_spaces_append (n : Nat) (s : Text) :
    indentation (spaces n ++ s) = spaces n ++ indentation s :=
  List.takeWhile_append_of_pos fun _ hc => (List.eq_of_mem_replicate hc) ▸ rfl

theorem indentation_dropWhile {s : Text} (h : '\t' ∉ indentation s) :
    indentation (s.dropWhile (· = ' ')) = [] := by
  induction s with
  | nil => rfl
  | cons c cs ih =>
      by_cases hc : c = ' '
      · subst hc
        exact ih (List.not_mem_of_not_mem_cons h)
      · have htab : c ≠ '\t' := by
          rintro rfl
          exact h List.mem_cons_self
        simp [indentation, isIndent, hc, htab]

theorem indentation_eq_spaces {s : Text} (h : '\t' ∉ indentation s) :
    indentation s = spaces (s.takeWhile (· = ' ')).length := by
  have hsplit : spaces (s.takeWhile (· = ' ')).length ++ s.dropWhile (· = ' ') = s := by
    rw [← takeWhile_eq_spaces, List.takeWhile_append_dropWhile]
  have happend := indentation_spaces_append (s.takeWhile (· = ' ')).length (s.dropWhile (· = ' '))
  rwa [hsplit, indentation_dropWhile h, List.append_nil] at happend

theorem indentation_reindent {s : Text} (hs : trim s ≠ []) (h : '\t' ∉ indentation s) :
    indentation (reindent f s) = spaces (f (indent s)) := by
  have hindent : indent s = (s.takeWhile (· = ' ')).length := by
    rw [indent, indentation_eq_spaces h, spaces, List.length_replicate]
  rw [reindent, if_neg (by simpa using hs), indentation_spaces_append, indentation_dropWhile h,
    List.append_nil, hindent]

theorem indent_reindent {s : Text} (hs : trim s ≠ []) (h : '\t' ∉ indentation s) :
    indent (reindent f s) = f (indent s) := by
  rw [indent, indentation_reindent hs h, spaces, List.length_replicate]

/-- The document with each line that has content reindented. -/
def reindentLines (f : Nat → Nat) (document : Text) : Text :=
  (Line.rawTexts document).flatMap (reindent f)

theorem reindentLines_append {above : Text} (h : above = [] ∨ above.getLast? = some '\n')
    (below : Text) :
    reindentLines f (above ++ below) = reindentLines f above ++ reindentLines f below := by
  rw [reindentLines, Line.rawTexts_append h, List.flatMap_append, reindentLines, reindentLines]

theorem reindentLines_line {body : Text} (h : '\n' ∉ body) (rest : Text) :
    reindentLines f (body ++ '\n' :: rest)
      = reindent f body ++ '\n' :: reindentLines f rest := by
  have hnewline : reindent f (body ++ ['\n']) = reindent f body ++ ['\n'] :=
    reindent_append_blanks body (List.forall_mem_singleton.mpr rfl)
  rw [reindentLines, Line.rawTexts_cons h, List.flatMap_cons, hnewline, List.append_assoc]
  rfl

theorem reindentLines_last {body : Text} (h : '\n' ∉ body) (hne : body ≠ []) :
    reindentLines f body = reindent f body := by
  rw [reindentLines, Line.rawTexts_of_newline_notMem h hne]
  simp

end Text

/-! ## Lines -/

namespace Line

def reindent (f : Nat → Nat) (line : Line) : Line := { line with text := Text.reindent f line.text }

/-- A line with content is indented without tabs. -/
def IsSpaced (line : Line) : Prop := line.isBlank = false → '\t' ∉ Text.indentation line.text

variable {line : Line}

@[simp]
theorem stripped_reindent (line : Line) : (line.reindent f).stripped = line.stripped :=
  Text.trim_reindent line.text

@[simp]
theorem isBlank_reindent (line : Line) : (line.reindent f).isBlank = line.isBlank := by
  rw [isBlank, isBlank, stripped_reindent]

theorem indent_reindent (hs : line.IsSpaced) (h : line.isBlank = false) :
    (line.reindent f).indent = f line.indent :=
  Text.indent_reindent (stripped_ne_nil h) (hs h)

theorem ofRaw_reindent (body : Text) :
    ofRaw (Text.reindent f body ++ ['\n']) = (ofRaw (body ++ ['\n'])).reindent f := by
  rw [ofRaw_line, ofRaw_line, reindent, Text.beforeLast?, Text.beforeLast?, Text.getLast?_reindent]
  split
  · rename_i hlast
    obtain ⟨before, rfl⟩ := List.getLast?_eq_some_iff.mp hlast
    have hreturn : Text.reindent f (before ++ ['\r']) = Text.reindent f before ++ ['\r'] :=
      Text.reindent_append_blanks before (List.forall_mem_singleton.mpr rfl)
    simp [hreturn]
  · rfl

/-- The lines of the reindented document are its lines reindented. -/
theorem ofDocument_reindentLines (document : Text) :
    ofDocument (Text.reindentLines f document) = (ofDocument document).map (reindent f) := by
  induction document using documentInduction with
  | nil => rfl
  | last body hne hbody =>
      have hne' : Text.reindent f body ≠ [] := by
        intro hnil
        have hlast := Text.getLast?_reindent (f := f) body
        rw [hnil] at hlast
        exact hne (List.getLast?_eq_none_iff.mp hlast.symm)
      rw [Text.reindentLines_last hbody hne, ofDocument_last hne hbody,
        ofDocument_last hne' (Text.newline_notMem_reindent hbody)]
      rfl
  | line body rest hbody ih =>
      rw [Text.reindentLines_line hbody, ofDocument_line hbody,
        ofDocument_line (Text.newline_notMem_reindent hbody), ih, ofRaw_reindent, List.map_cons]

end Line

/-! ## Statements -/

namespace Statement

def reindent (f : Nat → Nat) (statement : Statement) : Statement :=
  { statement with text := Text.reindent f statement.text }

@[simp]
theorem stripped_reindent (statement : Statement) :
    (statement.reindent f).stripped = statement.stripped :=
  Text.trim_reindent statement.text

@[simp]
theorem isBlank_reindent (statement : Statement) :
    (statement.reindent f).isBlank = statement.isBlank := by
  rw [isBlank, isBlank, stripped_reindent]

variable {line : Line} {lines following : List Line}

/-! Folding reads of the lines below a line what stands on them and how their indents compare. -/

section

variable {g : Line → Line} (hg : ∀ line, (g line).stripped = line.stripped)

include hg

theorem absorb_map {accept accept' : Line → Bool}
    (h : ∀ line ∈ lines, line.isBlank = false → accept' (g line) = accept line) :
    absorb accept' (lines.map g) = absorb accept lines := by
  induction lines with
  | nil => rfl
  | cons line rest ih =>
      obtain ⟨hline, hrest⟩ := List.forall_mem_cons.mp h
      simp only [List.map_cons, absorb, ih hrest, Line.isBlank, hg]
      cases hb : line.stripped.isEmpty with
      | true => rfl
      | false => simp only [hline hb]

variable (hf : StrictMono f)
  (h : ∀ line ∈ lines, line.isBlank = false → (g line).indent = f line.indent)

include hf h

theorem blockAttributes?_map (indent : Nat) :
    blockAttributes? (f indent) (lines.map g) = blockAttributes? indent lines := by
  induction lines with
  | nil => rfl
  | cons line rest ih =>
      obtain ⟨hline, hrest⟩ := List.forall_mem_cons.mp h
      simp only [List.map_cons, blockAttributes?, ih hrest, Line.isBlank, hg]
      cases hb : line.stripped.isEmpty with
      | true => rfl
      | false => simp only [hline hb, hf.le_iff_le]

theorem blockContent_map (indent : Nat) :
    blockContent (f indent) (lines.map g) = blockContent indent lines := by
  have hblank : ∀ line, (g line).isBlank = line.isBlank := fun line => congrArg List.isEmpty (hg line)
  have hfind : (lines.map g).find? (!·.isBlank) = (lines.find? (!·.isBlank)).map g :=
    find?_map_of_invariant (fun line : Line => congrArg (!·) (hblank line)) lines
  unfold blockContent
  rw [hfind]
  cases hfirst : lines.find? (!·.isBlank) with
  | none => rfl
  | some first =>
      have hindent := h first (List.mem_of_find?_eq_some hfirst) (by simpa using List.find?_some hfirst)
      simp only [Option.map_some]
      refine absorb_map hg fun next hnext hb => ?_
      rw [h next hnext hb, hindent, hg]
      simp only [hf.lt_iff_lt, hf.injective.eq_iff]

end

variable (hf : StrictMono f)

include hf

theorem block?_reindent (hb : line.isBlank = false) (hs : line.IsSpaced)
    (h : ∀ next ∈ following, next.IsSpaced) :
    block? (line.reindent f) (following.map (·.reindent f))
      = (block? line following).map (reindent f) := by
  have hindent : ∀ next ∈ following, next.isBlank = false → (next.reindent f).indent = f next.indent :=
    fun next hnext => Line.indent_reindent (h next hnext)
  unfold block?
  rw [Line.stripped_reindent, Line.indent_reindent hs hb,
    blockAttributes?_map Line.stripped_reindent hf hindent]
  cases helement : blockOpener? line.stripped with
  | none => rfl
  | some element =>
      obtain ⟨c, rest, _, _, hc, rfl⟩ := element_of_blockOpener? helement
      cases blockAttributes? line.indent following with
      | none => rfl
      | some result =>
          obtain ⟨fragments, taken⟩ := result
          have hlater : ∀ next ∈ following.drop taken, next.isBlank = false →
              (next.reindent f).indent = f next.indent :=
            fun next hnext => hindent next (List.mem_of_mem_drop hnext)
          have hcontent := blockContent_map Line.stripped_reindent hf hlater line.indent
          simp only [← List.map_drop, hcontent, Option.map_some, Option.some.injEq, reindent, folded,
            List.append_assoc, List.cons_append]
          rw [Line.reindent, Text.takeWhile_reindent_append (Line.stripped_ne_nil hb) hc]

theorem continued_reindent (hb : line.isBlank = false) (hs : line.IsSpaced)
    (h : ∀ next ∈ following, next.IsSpaced) :
    continued (line.reindent f) (following.map (·.reindent f))
      = (continued line following).reindent f := by
  have habsorb : absorb (fun next => (line.reindent f).indent < next.indent)
        (following.map (·.reindent f))
      = absorb (fun next => line.indent < next.indent) following := by
    refine absorb_map Line.stripped_reindent fun next hnext hblank => ?_
    rw [Line.indent_reindent hs hb, Line.indent_reindent (h next hnext) hblank]
    simp only [hf.lt_iff_lt]
  simp only [continued, habsorb, reindent, folded]
  rw [Line.reindent, Text.trimEnd_reindent_append (Line.stripped_ne_nil hb)]

theorem first_reindent (hs : line.IsSpaced) (h : ∀ next ∈ following, next.IsSpaced) :
    first (line.reindent f) (following.map (·.reindent f)) = (first line following).reindent f := by
  cases hb : line.isBlank with
  | true =>
      rw [first_of_isBlank _ hb, first_of_isBlank _ (by simpa using hb)]
      rfl
  | false =>
      unfold first
      rw [block?_reindent hf hb hs h, continued_reindent hf hb hs h, Line.stripped_reindent]
      cases block? line following with
      | some statement => rfl
      | none =>
          simp only [Option.map_none]
          split <;> rfl

/-- Reindented lines are folded into the same statements, reindented. -/
theorem ofLines_reindent (h : ∀ line ∈ lines, line.IsSpaced) :
    ofLines (lines.map (·.reindent f)) = (ofLines lines).map (reindent f) := by
  induction lines using ofLines.induct with
  | case1 => simp [ofLines]
  | case2 line following ih =>
      obtain ⟨hline, hfollowing⟩ := List.forall_mem_cons.mp h
      have hspan : ((first line following).reindent f).span = (first line following).span := rfl
      rw [List.map_cons, ofLines, first_reindent hf hline hfollowing, hspan, ← List.map_drop,
        ih fun next hnext => hfollowing next (List.mem_of_mem_drop hnext), ofLines, List.map_cons]

end Statement

end Haml
