import Haml.Proofs.Block
import Haml.Proofs.Standing

/-!
# Bodies of filters

A filter copies statements, and statements are folded before any filter is known. Main statement: what
a filter copies is the text of the lines under it, if and only if none of these lines starts a
statement whose text is another one than the line's.
-/

namespace Haml

/-! ## Copies -/

namespace Statement

/-- The copies of the statements under an indent. -/
def copies (indent : Nat) (statements : List Statement) : List Chunk :=
  (statements.takeWhile (isUnder indent)).flatMap fun statement => [.raw statement.text, .raw ['\n']]

variable {indent : Nat} {statement : Statement} (statements : List Statement)

theorem copies_of_isUnder (h : statement.isUnder indent = true) :
    copies indent (statement :: statements)
      = .raw statement.text :: .raw ['\n'] :: copies indent statements := by
  simp [copies, h]

theorem copies_of_not_isUnder (h : statement.isUnder indent = false) :
    copies indent (statement :: statements) = [] := by
  simp [copies, h]

end Statement

/-- The texts of the lines under an indent, each on a line of its own. -/
def Line.body (indent : Nat) (lines : List Line) : Text :=
  (lines.takeWhile (isUnder indent)).flatMap (·.text ++ ['\n'])

theorem Text.append_newline_inj {first second rest more : Text} (hfirst : '\n' ∉ first)
    (hsecond : '\n' ∉ second) :
    first ++ '\n' :: rest = second ++ '\n' :: more ↔ first = second ∧ rest = more := by
  have htake : ∀ {s : Text}, '\n' ∉ s → ∀ t, (s ++ '\n' :: t).takeWhile (· ≠ '\n') = s := by
    intro s hs t
    have hstop := takeWhile_append_cons (p := (· ≠ '\n')) (a := '\n') (by decide) s t
    rw [hstop, List.takeWhile_eq_self_iff]
    intro c hc
    simpa using fun heq : c = '\n' => hs (heq ▸ hc)
  constructor
  · intro h
    have heq : first = second := by rw [← htake hfirst rest, h, htake hsecond more]
    subst heq
    exact ⟨rfl, by simpa using h⟩
  · rintro ⟨rfl, rfl⟩
    rfl

/-- What holds wherever a list is cut before an element, told from its first element on. -/
theorem forall_cut_cons {α : Type} {a : α} {l : List α} {P : List α → α → List α → Prop} :
    (∀ above b below, a :: l = above ++ b :: below → P above b below)
      ↔ P [] a l ∧ ∀ above b below, l = above ++ b :: below → P (a :: above) b below := by
  constructor
  · intro h
    exact ⟨h [] a l rfl, fun above b below heq => h (a :: above) b below (by rw [heq]; rfl)⟩
  · rintro ⟨hfirst, hlater⟩ (_ | ⟨first, above⟩) b below heq
    · cases heq
      exact hfirst
    · cases heq
      exact hlater above b below rfl

namespace Statement

variable {indent : Nat} {line : Line} {following : List Line}

theorem copies_ofLines_of_isUnder (h : line.isUnder indent = true) :
    Chunk.concat (copies indent (ofLines (line :: following))) = (first line following).text
      ++ '\n' :: Chunk.concat (copies indent (ofLines (linesAfter line following))) := by
  rw [ofLines, copies_of_isUnder _ ((isUnder_first indent line following).trans h)]
  rfl

theorem linesAfter_of_text_first (h : (first line following).text = line.text) :
    linesAfter line following = following := by
  rw [linesAfter, span_of_text_first h]
  rfl

/--
The copied statements are the lines, if and only if each of the lines starts a statement that has the
line's text.
-/
theorem concat_copies_eq_iff {lines : List Line} (h : ∀ line ∈ lines, '\n' ∉ line.text)
    (indent : Nat) :
    Chunk.concat (copies indent (ofLines lines)) = Line.body indent lines
      ↔ ∀ above line below, lines = above ++ line :: below →
        (∀ next ∈ above ++ [line], next.isUnder indent = true) →
          (first line below).text = line.text := by
  induction lines with
  | nil => simp [copies, Line.body, ofLines, Chunk.concat]
  | cons line following ih =>
      obtain ⟨hline, hfollowing⟩ := List.forall_mem_cons.mp h
      rw [forall_cut_cons]
      cases hunder : line.isUnder indent with
      | false =>
          -- Nothing is copied, and no cut can be made before a line that is still under the indent.
          rw [ofLines, copies_of_not_isUnder _ ((isUnder_first indent line following).trans hunder),
            Line.body, List.takeWhile_cons_of_neg (by simp [hunder])]
          refine iff_of_true rfl ⟨fun hall => ?_, fun above next below _ hall => ?_⟩
          · exact absurd (hall line List.mem_cons_self) (by simp [hunder])
          · exact absurd (hall line List.mem_cons_self) (by simp [hunder])
      | true =>
          have hbody : Line.body indent (line :: following)
              = line.text ++ '\n' :: Line.body indent following := by
            rw [Line.body, List.takeWhile_cons_of_pos hunder]
            simp [Line.body]
          rw [copies_ofLines_of_isUnder hunder, hbody,
            Text.append_newline_inj (newline_notMem_first hline hfollowing) hline]
          have hfirst : (∀ next ∈ [] ++ [line], next.isUnder indent = true) :=
            List.forall_mem_singleton.mpr hunder
          -- The induction goes on at the next line only if the statement takes no line but its own,
          -- and this follows from its text in both directions.
          constructor
          · rintro ⟨htext, hrest⟩
            rw [linesAfter_of_text_first htext] at hrest
            refine ⟨fun _ => htext, fun above next below heq hall => ?_⟩
            exact (ih hfollowing).mp hrest above next below heq (List.forall_mem_cons.mp hall).2
          · rintro ⟨htext, hlater⟩
            refine ⟨htext hfirst, ?_⟩
            rw [linesAfter_of_text_first (htext hfirst)]
            refine (ih hfollowing).mpr fun above next below heq hall => ?_
            exact hlater above next below heq (List.forall_mem_cons.mpr ⟨hunder, hall⟩)

end Statement

/-! ## Runs from an open filter -/

namespace Converter

variable {converter : Converter} {filter : OpenFilter}

/-- An open filter copies what is under it; then it is closed, and the run goes on without it. -/
theorem run_of_active (hf : converter.filters.active = some filter) (statements : List Statement) :
    (converter.run statements).1 = Statement.copies filter.indent statements
      ++ filter.closeLine :: (converter.withoutFilter.run
        (statements.dropWhile (Statement.isUnder filter.indent))).1 := by
  induction statements with
  | nil =>
      simp only [run, finish_fst, hf, withoutFilter]
      rfl
  | cons statement following ih =>
      have htakes : converter.filters.takes statement = statement.isUnder filter.indent := by
        simp [Filters.takes, hf, Statement.isUnder]
      cases hunder : statement.isUnder filter.indent with
      | true =>
          have hstep : converter.step statement (Statement.indentOfFirst following)
              = ([.raw statement.text, .raw ['\n']], converter) := by
            simp [step, Filters.absorb?, htakes, hunder]
          rw [run, hstep, Statement.copies_of_isUnder _ hunder, List.dropWhile_cons_of_pos hunder]
          simp [ih]
      | false =>
          have hstep := step_of_not_takes hf (htakes.trans hunder)
            (Statement.indentOfFirst following)
          rw [Statement.copies_of_not_isUnder _ hunder,
            List.dropWhile_cons_of_neg (by simp [hunder]), run, hstep, run]
          rfl

end Converter

/-! ## Lines that start filters -/

theorem Kind.head?_of_filter {content : Text} (h : Kind.of content = .filter) :
    content.head? = some ':' := by
  unfold Kind.of at h
  split at h
  all_goals first | rfl | cases h

/-- Only the content of a filter line asks for a filter. -/
theorem Rendering.kind_of_filter {content : Text} {hasChildren : Bool} {kind : FilterKind}
    (h : ofContent content hasChildren = .filter kind) : Kind.of content = .filter := by
  unfold ofContent at h
  cases hkind : Kind.of content <;> simp only [hkind] at h
  case filter => rfl
  case doctype => unfold ofDoctype at h; split at h <;> cases h
  case output => unfold ofOutput at h; split at h <;> cases h
  case element => unfold ofTag at h; split at h <;> cases h
  case classShorthand => unfold ofTag at h; split at h <;> cases h
  case idShorthand => unfold ofTag at h; split at h <;> cases h
  all_goals cases h

theorem Turn.of_startsFilter {turn : Turn} (h : turn.startsFilter = true) :
    turn.isRendered = true ∧ ∃ kind, turn.rendering = .filter kind := by
  obtain ⟨hrendered, hfilter⟩ := Bool.and_eq_true_iff.mp h
  split at hfilter
  · rename_i kind hkind
    exact ⟨hrendered, kind, hkind⟩
  · cases hfilter

theorem Statement.first_of_startsFilter {converter : Converter} {line : Line} {following : List Line}
    (h : (converter.turnAt line following).startsFilter = true) :
    line.isBlank = false ∧ first line following = single line := by
  obtain ⟨hrendered, kind, hkind⟩ := Turn.of_startsFilter h
  have hblank : line.isBlank = false := by
    cases hb : line.isBlank with
    | false => rfl
    | true =>
        obtain ⟨_, hstatement⟩ := Bool.and_eq_true_iff.mp hrendered
        have hfirst : (first line following).isBlank = true := by
          rw [first_of_isBlank following hb]
          exact hb
        simp [Converter.turnAt, hfirst] at hstatement
  have hhead : line.stripped.head? = some ':' := by
    rw [← head?_stripped_first following hblank]
    exact Kind.head?_of_filter (Rendering.kind_of_filter hkind)
  obtain ⟨rest, hstripped⟩ := List.head?_eq_some_iff.mp hhead
  exact ⟨hblank, first_eq_single following (by rw [hstripped]; rfl) (by rw [hstripped]; rfl)⟩

/-! ## The body of a filter -/

/--
Between the opening and the closing line of a filter stand the copies of the statements under its line.
They are the texts of the lines under it, each on a line of its own, if and only if none of these lines
starts a statement with another text than the line's.
-/
theorem filter_body {document : Text} {written : List Chunk} {converter : Converter} {line : Line}
    {following : List Line} (h : Standing document written converter (line :: following))
    (hstarts : (converter.turnAt line following).startsFilter = true) :
    ∃ kind : FilterKind,
      (Converter.start.run (Statement.ofDocument document)).1
          = written ++ (converter.turnAt line following).filterEnd
            ++ (converter.scopes.frames.takeWhile
              ((converter.turnAt line following).ends ·.indent)).map Frame.closeLine
            ++ Chunk.indented line.indent kind.opening
              :: Statement.copies line.indent (Statement.ofLines following)
            ++ Chunk.indented line.indent kind.closing
              :: (((converter.turnAt line following).after converter).withoutFilter.run
                ((Statement.ofLines following).dropWhile (Statement.isUnder line.indent))).1
        ∧ (Chunk.concat (Statement.copies line.indent (Statement.ofLines following))
            = Line.body line.indent following
          ↔ ∀ above next below, following = above ++ next :: below →
            (∀ l ∈ above ++ [next], l.isUnder line.indent = true) →
              (Statement.first next below).text = next.text) := by
  obtain ⟨hrendered, kind, hkind⟩ := Turn.of_startsFilter hstarts
  obtain ⟨hblank, hsingle⟩ := Statement.first_of_startsFilter hstarts
  obtain ⟨htaken, hstatement⟩ : (converter.turnAt line following).isTaken = false
      ∧ (converter.turnAt line following).statement.isBlank = false := by
    simpa [Turn.isRendered] using hrendered
  have hindent : (converter.turnAt line following).statement.indent = line.indent :=
    Statement.indent_first following hblank
  have hown : (converter.turnAt line following).own = [.indented line.indent kind.opening] := by
    simp [Turn.own, htaken, hstatement, hkind, hindent]
  have hactive : ((converter.turnAt line following).after converter).filters.active
      = some ⟨kind, line.indent⟩ := by
    simp [Turn.after, Turn.filterAfter, htaken, hkind, hindent]
  have hafter : Statement.linesAfter line following = following :=
    Statement.linesAfter_of_text_first (congrArg Statement.text hsingle)
  have hlines : ∀ next ∈ following, '\n' ∉ next.text := fun next hnext =>
    Line.newline_notMem_text next (h.suffix.mem (List.mem_cons_of_mem line hnext))
  refine ⟨kind, ?_, Statement.concat_copies_eq_iff hlines line.indent⟩
  rw [h.run_eq, Converter.run_ofLines_cons, Converter.stepAt_eq, hafter, hown,
    Converter.run_of_active hactive]
  simp [OpenFilter.closeLine]

/-- One line of code, and an element that ends the filter. -/
theorem filter_body_assignment :
    Chunk.concat (Statement.copies 0 (Statement.ofLines [⟨"  x = 1".toList, true⟩, ⟨"%p".toList, true⟩]))
      = "  x = 1\n".toList := by
  have hstanding : Standing ":ruby\n  x = 1\n%p\n".toList [] .start
      [⟨":ruby".toList, true⟩, ⟨"  x = 1".toList, true⟩, ⟨"%p".toList, true⟩] := .start
  obtain ⟨_, _, hbody⟩ := filter_body hstanding (by decide +kernel)
  refine hbody.mpr ?_
  rintro (_ | ⟨first, _ | ⟨second, above⟩⟩) next below heq hunder
  · cases heq
    decide +kernel
  · cases heq
    exact absurd (hunder ⟨"%p".toList, true⟩ (by simp)) (by decide)
  · simp at heq

/-- A Ruby block between braces is taken for the attributes of an element. -/
theorem filter_body_not_verbatim :
    (Converter.start.turnAt ⟨":ruby".toList, true⟩ (Line.ofDocument
        "  names = users\n    .map \x7b\n      name(1)\n      name(2)\n    \x7d\n".toList)).startsFilter
      ∧ Chunk.concat (Statement.copies 0 (Statement.ofDocument
          "  names = users\n    .map \x7b\n      name(1)\n      name(2)\n    \x7d\n".toList))
        ≠ Line.body 0 (Line.ofDocument
          "  names = users\n    .map \x7b\n      name(1)\n      name(2)\n    \x7d\n".toList)
      ∧ (convert
          ":ruby\n  names = users\n    .map \x7b\n      name(1)\n      name(2)\n    \x7d\n".toList).page
        = "<%\n  names = users\n    .map\x7b name(1), name(2) \x7d\n%>\n".toList := by
  decide +kernel

end Haml
