import Haml.Proofs.Row

/-!
# Markers

The markers of a page are the closers of scopes and the delimiters of filters. Each is written behind the
spaces of the indent at which its scope or filter was opened. Main statement: every marker of a page stands
on a line of its own, unless the document breaks off in a blank line while scopes are open.
-/

namespace Haml

/-! ## Where a marker stands -/

/-- A text after which a new line starts. -/
def Text.EndsLine (s : Text) : Prop := s = [] ∨ s.getLast? = some '\n'

theorem Text.EndsLine.append {s t : Text} (hs : s.EndsLine) (ht : t.EndsLine) : (s ++ t).EndsLine := by
  rcases ht with rfl | hlast
  · rwa [List.append_nil]
  · exact .inr (by simp [List.getLast?_append, hlast])

namespace Chunk

/-- Every marker among the chunks starts a line: the text before it is empty or ends with a newline. -/
def MarkersStandAlone (chunks : List Chunk) : Prop :=
  ∀ before width marker after, chunks = before ++ .indented width marker :: after →
    Text.EndsLine (concat before)

variable {chunks more : List Chunk}

namespace MarkersStandAlone

theorem of_notMem (h : ∀ width marker, .indented width marker ∉ chunks) : MarkersStandAlone chunks := by
  rintro before width marker after rfl
  exact absurd (by simp) (h width marker)

theorem append (h : MarkersStandAlone chunks) (h' : MarkersStandAlone more)
    (hend : Text.EndsLine (concat chunks)) : MarkersStandAlone (chunks ++ more) := by
  intro before width marker after heq
  rcases List.append_eq_append_iff.mp heq with ⟨rest, rfl, hmore⟩ | ⟨rest, hchunks, hrest⟩
  · rw [concat_append]
    exact hend.append (h' rest width marker after hmore)
  · rcases List.cons_eq_append_iff.mp hrest with ⟨rfl, _⟩ | ⟨rest, rfl, _⟩
    · rwa [hchunks, List.append_nil] at hend
    · exact h before width marker rest hchunks

theorem map {α : Type} {chunk : α → Chunk} {items : List α}
    (h : ∀ item ∈ items, (concat [chunk item]).IsRow) : MarkersStandAlone (items.map chunk) := by
  intro before width marker after heq
  obtain ⟨above, below, rfl, rfl, _⟩ := List.map_eq_append_iff.mp heq
  exact (MakeRows.map fun item hitem => h item (List.mem_append_left below hitem)).ends

end MarkersStandAlone

/-- The ends of filters and the closers of scopes, one after the other. -/
theorem markersStandAlone_ends (filters : List OpenFilter) {frames : List Frame}
    (h : ∀ frame ∈ frames, IsCloser frame.closer) :
    MarkersStandAlone (filters.map OpenFilter.closeLine ++ frames.map Frame.closeLine)
      ∧ Text.EndsLine (concat (filters.map OpenFilter.closeLine ++ frames.map Frame.closeLine)) := by
  have hfilters : ∀ filter ∈ filters, (concat [filter.closeLine]).IsRow :=
    fun filter _ => filter.isRow_closeLine
  have hframes : ∀ frame ∈ frames, (concat [frame.closeLine]).IsRow :=
    fun frame hframe => Frame.isRow_closeLine (h frame hframe)
  exact ⟨.append (.map hfilters) (.map hframes) (MakeRows.map hfilters).ends,
    ((MakeRows.map hfilters).append (.map hframes)).ends⟩

end Chunk

/-! ## What a step writes -/

namespace Turn

variable {turn : Turn}

theorem exists_filterEnd (turn : Turn) :
    ∃ filters : List OpenFilter, turn.filterEnd = filters.map OpenFilter.closeLine := by
  unfold filterEnd
  split
  · exact ⟨[], rfl⟩
  · exact ⟨_, rfl⟩

theorem markersStandAlone_own (turn : Turn) : Chunk.MarkersStandAlone turn.own := by
  unfold own
  split
  · exact .of_notMem (by simp)
  · split
    · exact .of_notMem (by unfold Converter.copyBlank; split <;> simp)
    · split
      · exact .of_notMem (by simp)
      · intro before width marker after heq
        obtain ⟨rfl, _⟩ | ⟨_, _, hnil⟩ := List.cons_eq_append_iff.mp heq
        · exact .inl rfl
        · simp at hnil
      · exact .of_notMem (by simp)

theorem endsLine_own_of_isTaken (h : turn.isTaken = true) : Text.EndsLine (Chunk.concat turn.own) := by
  rw [own, if_pos h]
  exact .inr (by simp [Chunk.concat, Chunk.text])

end Turn

namespace Converter

variable {converter : Converter}

theorem markersStandAlone_finish (hs : converter.Sound) :
    Chunk.MarkersStandAlone converter.finish.1 := by
  rw [finish_fst]
  exact (Chunk.markersStandAlone_ends _ hs.closers).1

theorem markersStandAlone_step (hs : converter.Sound) (statement : Statement) (nextIndent : Nat) :
    Chunk.MarkersStandAlone (converter.step statement nextIndent).1 := by
  let turn : Turn := ⟨converter.filters.active, statement, nextIndent⟩
  obtain ⟨filters, hfilters⟩ := turn.exists_filterEnd
  have hclosers : ∀ frame ∈ converter.scopes.frames.takeWhile (turn.ends ·.indent),
      IsCloser frame.closer := fun frame hframe =>
    hs.closers frame ((List.takeWhile_prefix _).mem hframe)
  obtain ⟨hends, hline⟩ := Chunk.markersStandAlone_ends filters hclosers
  rw [step_eq (show turn = _ from rfl), hfilters]
  exact hends.append turn.markersStandAlone_own hline

/-- Whether the line is blank, has no newline, and is taken by no filter. -/
def leavesLineOpen (converter : Converter) (line : Line) : Prop :=
  line.isBlank = true ∧ line.terminated = false ∧ converter.filters.active = none

/-- A line that leaves the line of the page open is copied, and nothing else changes. -/
theorem stepAt_of_leavesLineOpen {line : Line} (h : converter.leavesLineOpen line)
    (following : List Line) : converter.stepAt line following = ([.raw line.text], converter) := by
  obtain ⟨hblank, hopen, hnone⟩ := h
  have hblankStatement : (Statement.single line).isBlank = true := hblank
  rw [stepAt, Statement.first_of_isBlank following hblank]
  simp [step, Filters.absorb?, Filters.takes, Filters.finish, convert, hnone, hblankStatement]
  simp [copyBlank, Statement.single, hopen]

/-- After any other line a new line of the page starts. -/
theorem endsLine_stepAt (hs : converter.Sound) {line : Line} {following : List Line}
    (hnewline : '\n' ∉ (Statement.first line following).text) (h : ¬ converter.leavesLineOpen line) :
    Text.EndsLine (Chunk.concat (converter.stepAt line following).1) := by
  have hturn : converter.turnAt line following
      = ⟨converter.filters.active, Statement.first line following,
          (converter.turnAt line following).nextIndent⟩ := rfl
  cases htaken : (converter.turnAt line following).isTaken with
  | true =>
      have hstep : converter.stepAt line following = ((converter.turnAt line following).own, converter) :=
        step_of_isTaken hturn htaken
      rw [hstep]
      exact Turn.endsLine_own_of_isTaken htaken
  | false =>
      refine (makeRows_step hs hnewline (fun hb => ?_) hturn).ends
      have hnone : converter.filters.active = none := Turn.filter_eq_none_of_isBlank htaken hb
      cases hblank : line.isBlank with
      | false => rw [Statement.isBlank_first following hblank] at hb; cases hb
      | true =>
          rw [Statement.first_of_isBlank following hblank]
          cases hopen : line.terminated with
          | true => exact hopen
          | false => exact absurd ⟨hblank, hopen, hnone⟩ h

end Converter

/-! ## The last line -/

theorem Line.last_of_unterminated {document : Text} {line : Line} {following : List Line}
    (h : line :: following <:+ ofDocument document) (hopen : line.terminated = false) :
    following = [] ∧ line.text ≠ [] ∧ '\n' ∉ line.text := by
  induction document using documentInduction with
  | nil => simp [ofDocument, rawTexts] at h
  | last body hne hbody =>
      rw [ofDocument_last hne hbody] at h
      rcases List.suffix_cons_iff.mp h with heq | hsuffix
      · obtain ⟨rfl, hnil⟩ := List.cons_eq_cons.mp heq
        exact ⟨hnil, hne, hbody⟩
      · cases List.suffix_nil.mp hsuffix
  | line body rest hbody ih =>
      rw [ofDocument_line hbody] at h
      rcases List.suffix_cons_iff.mp h with heq | hsuffix
      · obtain ⟨rfl, _⟩ := List.cons_eq_cons.mp heq
        rw [ofRaw_line] at hopen
        cases hopen
      · exact ih hsuffix

/-- The document breaks off in a blank line while scopes are open and no filter is. -/
def BreaksOffInBlank (document : Text) : Prop :=
  ∃ written converter line, Standing document written converter [line]
    ∧ converter.leavesLineOpen line ∧ converter.scopes.frames ≠ []

namespace Standing

variable {document : Text} {written : List Chunk} {converter : Converter} {lines : List Line}

/-- A conversion comes to the end of its document. -/
theorem exists_end (document : Text) : ∃ written converter, Standing document written converter [] := by
  suffices hmore : ∀ lines : List Line, ∀ written converter, Standing document written converter lines →
      ∃ written converter, Standing document written converter [] from hmore _ _ _ .start
  intro lines
  induction lines using Statement.ofLines.induct with
  | case1 => exact fun written converter h => ⟨written, converter, h⟩
  | case2 line following ih => exact fun _ _ h => ih _ _ h.next

theorem markersStandAlone (h : Standing document written converter lines)
    (hend : ¬ BreaksOffInBlank document) :
    Chunk.MarkersStandAlone written
      ∧ (Text.EndsLine (Chunk.concat written)
        ∨ lines = [] ∧ converter.scopes.frames = [] ∧ converter.filters.active = none) := by
  induction h with
  | start => exact ⟨.of_notMem (by simp), .inl (.inl rfl)⟩
  | @next written converter line following h ih =>
      obtain ⟨hwritten, hline⟩ := ih
      have hline : Text.EndsLine (Chunk.concat written) := by
        rcases hline with hline | ⟨hnil, _⟩
        · exact hline
        · cases hnil
      have hs := h.moves_and_sound.2
      refine ⟨hwritten.append (Converter.markersStandAlone_step hs _ _) hline, ?_⟩
      by_cases hopen : converter.leavesLineOpen line
      · obtain ⟨rfl, _⟩ := Line.last_of_unterminated h.suffix hopen.2.1
        have hframes : converter.scopes.frames = [] := by
          by_contra hne
          exact hend ⟨written, converter, line, h, hopen, hne⟩
        rw [Converter.stepAt_of_leavesLineOpen hopen]
        exact .inr ⟨List.drop_nil, hframes, hopen.2.2⟩
      · have hlines : ∀ next ∈ line :: following, '\n' ∉ next.text :=
          fun next hnext => Line.newline_notMem_text next (h.suffix.mem hnext)
        obtain ⟨hfirst, hrest⟩ := List.forall_mem_cons.mp hlines
        rw [Chunk.concat_append]
        exact .inl (hline.append
          (Converter.endsLine_stepAt hs (Statement.newline_notMem_first hfirst hrest) hopen))

/-- A document that breaks off in a blank line has a closer behind the blanks of that line. -/
theorem exists_closer (h : BreaksOffInBlank document) :
    ∃ before frame after,
      (Converter.start.run (Statement.ofDocument document)).1 = before ++ Frame.closeLine frame :: after
        ∧ ¬ Text.EndsLine (Chunk.concat before) := by
  obtain ⟨written, converter, line, hstanding, hopen, hframes⟩ := h
  obtain ⟨frame, outer, hframe⟩ := List.exists_cons_of_ne_nil hframes
  obtain ⟨_, hne, hnewline⟩ := Line.last_of_unterminated hstanding.suffix hopen.2.1
  have hrun := congrArg Prod.fst hstanding.next.run_eq
  rw [Converter.stepAt_of_leavesLineOpen hopen, Statement.linesAfter, List.drop_nil, Statement.ofLines,
    Converter.run, Converter.finish_fst, hopen.2.2, hframe] at hrun
  refine ⟨written ++ [.raw line.text], frame, outer.map Frame.closeLine, hrun, ?_⟩
  have htext : Chunk.concat (written ++ [.raw line.text]) = Chunk.concat written ++ line.text := by
    simp [Chunk.concat, Chunk.text]
  rw [htext]
  rintro (hnil | hlast)
  · exact hne (List.append_eq_nil_iff.mp hnil).2
  · rw [List.getLast?_append_of_ne_nil _ hne] at hlast
    exact hnewline (List.mem_of_getLast? hlast)

end Standing

/-! ## The markers of a run -/

/--
The marker between two standings: the closer of the scope that is closed, or the delimiter of the filter
that is opened or closed, each with the indent of the line that opened it.
-/
inductive Marks (before after : Converter) : Nat → Text → Prop where
  | closer (frame : Frame) : before.scopes.frames = frame :: after.scopes.frames →
      Marks before after frame.indent frame.closer
  | opening (filter : OpenFilter) : before.filters.active = none → after.filters.active = some filter →
      Marks before after filter.indent filter.kind.opening
  | closing (filter : OpenFilter) : before.filters.active = some filter → after.filters.active = none →
      Marks before after filter.indent filter.kind.closing

namespace Marks

variable {before after : Converter} {width : Nat} {marker : Text}

/-- Between standings with the same scopes and the same filter there is no marker. -/
theorem not_of_eq (hscopes : after.scopes.frames = before.scopes.frames)
    (hfilter : after.filters.active = before.filters.active) : ¬ Marks before after width marker := by
  intro h
  cases h with
  | closer frame hpop => rw [hscopes] at hpop; exact absurd hpop.symm (List.cons_ne_self _ _)
  | opening filter hnone hsome => rw [hfilter, hnone] at hsome; cases hsome
  | closing filter hsome hnone => rw [hfilter, hsome] at hnone; cases hnone

theorem isBody (h : Marks before after width marker) (hs : before.Sound) : marker.IsBody := by
  cases h with
  | closer frame hpop => exact (hs.closers frame (by simp [hpop])).isBody
  | opening filter => exact filter.kind.isBody.1
  | closing filter => exact filter.kind.isBody.2

end Marks

variable {before after : Converter} {chunks : List Chunk} {width : Nat} {marker : Text}

/-- The markers that a move writes are those that stand between its two standings. -/
theorem Move.mem_iff_marks (h : Move before chunks after) :
    .indented width marker ∈ chunks ↔ Marks before after width marker := by
  cases h with
  | copy => simp [Marks.not_of_eq]
  | line => simp [Marks.not_of_eq]
  | verbatim => simp [Marks.not_of_eq]
  | openScope frame hnone =>
      refine iff_of_false List.not_mem_nil fun h => ?_
      cases h with
      | closer _ hpop =>
          have hlength := congrArg List.length hpop
          simp only [Scopes.push, List.length_cons] at hlength
          omega
      | opening _ _ hsome => rw [hnone] at hsome; cases hsome
      | closing _ hsome => rw [hnone] at hsome; cases hsome
  | closeScope frame outer hnone hframes =>
      rw [List.mem_singleton, Frame.closeLine, Chunk.indented.injEq]
      constructor
      · rintro ⟨rfl, rfl⟩
        exact .closer frame hframes
      · intro h
        cases h with
        | closer found hpop =>
            obtain ⟨rfl, _⟩ := List.cons_eq_cons.mp (hframes.symm.trans hpop)
            exact ⟨rfl, rfl⟩
        | opening _ _ hsome => rw [hnone] at hsome; cases hsome
        | closing _ hsome => rw [hnone] at hsome; cases hsome
  | openFilter filter hnone =>
      rw [List.mem_singleton, Chunk.indented.injEq]
      constructor
      · rintro ⟨rfl, rfl⟩
        exact .opening filter hnone rfl
      · intro h
        cases h with
        | closer _ hpop => exact absurd hpop.symm (List.cons_ne_self _ _)
        | opening _ _ hsome => cases hsome; exact ⟨rfl, rfl⟩
        | closing _ hsome => rw [hnone] at hsome; cases hsome
  | closeFilter filter hfilter =>
      rw [List.mem_singleton, OpenFilter.closeLine, Chunk.indented.injEq]
      constructor
      · rintro ⟨rfl, rfl⟩
        exact .closing filter hfilter rfl
      · intro h
        cases h with
        | closer _ hpop => exact absurd hpop.symm (List.cons_ne_self _ _)
        | opening _ _ hsome => cases hsome
        | closing _ hsome => cases hfilter.symm.trans hsome; exact ⟨rfl, rfl⟩

theorem Moves.isBody_of_mem (h : Moves before chunks after) (hs : before.Sound)
    (hmem : .indented width marker ∈ chunks) : marker.IsBody := by
  induction h with
  | nil => cases hmem
  | cons hmove _ ih =>
      rcases List.mem_append.mp hmem with hmem | hmem
      · exact (hmove.mem_iff_marks.mp hmem).isBody hs
      · exact ih (hmove.sound hs) hmem

/--
The page is written by moves, and the marker that a move writes is the closer of the scope that it closes
or the delimiter of the filter that it opens or closes. On the page each marker comes behind exactly the
spaces of its indent, and it ends its line. Every marker begins a new line as well, unless the document
breaks off in a blank line while scopes are open; then one does not.
-/
theorem markersStandAlone_iff (document : Text) :
    let written := (Converter.start.run (Statement.ofDocument document)).1
    (convert document).page = Chunk.concat written
      ∧ Moves Converter.start written (Converter.start.run (Statement.ofDocument document)).2
      ∧ (∀ before chunks after, Move before chunks after → ∀ width marker,
          .indented width marker ∈ chunks ↔ Marks before after width marker)
      ∧ (∀ before width marker after, written = before ++ .indented width marker :: after →
          marker.IsBody ∧ (convert document).page
            = Chunk.concat before ++ (Text.spaces width ++ marker ++ '\n' :: Chunk.concat after))
      ∧ (Chunk.MarkersStandAlone written ↔ ¬ BreaksOffInBlank document) := by
  intro written
  have hmoves := Converter.moves_run Converter.sound_start (Statement.ofDocument document)
  have hpage : (convert document).page = Chunk.concat written := rfl
  refine ⟨hpage, hmoves, fun _ _ _ hmove _ _ => hmove.mem_iff_marks,
    fun before width marker after heq => ?_, fun h hbreaks => ?_, fun h => ?_⟩
  · have hmem : .indented width marker ∈ written := by simp [heq]
    refine ⟨hmoves.isBody_of_mem Converter.sound_start hmem, ?_⟩
    rw [hpage, heq]
    simp [Chunk.concat, Chunk.text]
  · obtain ⟨before, frame, after, heq, hopen⟩ := Standing.exists_closer hbreaks
    exact hopen (h before frame.indent frame.closer after heq)
  · obtain ⟨above, converter, hstanding⟩ := Standing.exists_end document
    obtain ⟨habove, hline⟩ := hstanding.markersStandAlone h
    have hrun : written = above ++ converter.finish.1 := by
      have hrun := congrArg Prod.fst hstanding.run_eq
      rwa [Statement.ofLines] at hrun
    rw [hrun]
    rcases hline with hline | ⟨_, hframes, hnone⟩
    · exact habove.append (Converter.markersStandAlone_finish hstanding.moves_and_sound.2) hline
    · have hnothing : converter.finish.1 = [] := by rw [Converter.finish_fst, hframes, hnone]; rfl
      rwa [hnothing, List.append_nil]

/-- The last line is blank and has no newline: the closer of the list comes behind its blanks. -/
theorem not_markersStandAlone_of_blank :
    (convert "%ul\n  %li a\n  ".toList).page = "<ul>\n  <li>a</li>\n  </ul>\n".toList
      ∧ ¬ Chunk.MarkersStandAlone
        (Converter.start.run (Statement.ofDocument "%ul\n  %li a\n  ".toList)).1 := by
  refine ⟨by decide +kernel, fun h => ?_⟩
  have hend : Text.EndsLine "<ul>\n  <li>a</li>\n  ".toList :=
    h [.line [] "<ul>".toList, .line "  ".toList "<li>a</li>".toList, .raw "  ".toList] 0 "</ul>".toList []
      (by decide +kernel)
  rcases hend with hnil | hlast
  · cases hnil
  · exact absurd hlast (by decide)

end Haml
