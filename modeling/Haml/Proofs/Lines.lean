import Haml.Proofs.Body
import Haml.Proofs.Fold
import Mathlib.Algebra.GroupWithZero.Nat

/-!
# Documents as lines

A document is empty, or a last line without newline, or a line with its newline and a document. Only
the last line can lack its newline, and no line holds another one; nor does a statement, which is made
of parts of lines and of delimiters.
-/

namespace Haml

/-! ## Lines -/

namespace Line

theorem rawTexts_ne_nil {document : Text} (h : document ≠ []) : rawTexts document ≠ [] := by
  cases document with
  | nil => exact absurd rfl h
  | cons c cs =>
      rw [rawTexts]
      split
      · exact List.cons_ne_nil _ _
      · exact Text.consHead_ne_nil c _

theorem rawTexts_append {above : Text} (h : above = [] ∨ above.getLast? = some '\n') (below : Text) :
    rawTexts (above ++ below) = rawTexts above ++ rawTexts below := by
  induction above with
  | nil => rfl
  | cons c cs ih =>
      have hlast : (c :: cs).getLast? = some '\n' := by simpa using h
      by_cases hc : c = '\n'
      · have hcs : cs = [] ∨ cs.getLast? = some '\n' := by
          cases cs with
          | nil => exact .inl rfl
          | cons d ds => exact .inr (by simpa using hlast)
        simp [rawTexts, hc, ih hcs]
      · have hne : cs ≠ [] := by
          rintro rfl
          simp [hc] at hlast
        have hcs : cs.getLast? = some '\n' := by
          rwa [List.getLast?_cons_of_ne_nil hne] at hlast
        rw [List.cons_append, rawTexts, rawTexts, if_neg hc, if_neg hc, ih (.inr hcs),
          Text.consHead_append c (rawTexts_ne_nil hne)]

theorem ofDocument_append {above : Text} (h : above = [] ∨ above.getLast? = some '\n')
    (below : Text) : ofDocument (above ++ below) = ofDocument above ++ ofDocument below := by
  rw [ofDocument, rawTexts_append h, List.map_append, ofDocument, ofDocument]

theorem rawTexts_of_newline_notMem {body : Text} (h : '\n' ∉ body) (hne : body ≠ []) :
    rawTexts body = [body] := by
  induction body with
  | nil => exact absurd rfl hne
  | cons c cs ih =>
      obtain ⟨hc, hcs⟩ : c ≠ '\n' ∧ '\n' ∉ cs := by simpa [eq_comm] using h
      cases cs with
      | nil => simp [rawTexts, hc, Text.consHead]
      | cons d ds => rw [rawTexts, if_neg hc, ih hcs (List.cons_ne_nil d ds), Text.consHead]

theorem rawTexts_line {body : Text} (h : '\n' ∉ body) : rawTexts (body ++ ['\n']) = [body ++ ['\n']] := by
  induction body with
  | nil => rfl
  | cons c cs ih =>
      obtain ⟨hc, hcs⟩ : c ≠ '\n' ∧ '\n' ∉ cs := by simpa [eq_comm] using h
      rw [List.cons_append, rawTexts, if_neg hc, ih hcs, Text.consHead]

theorem rawTexts_cons {body : Text} (h : '\n' ∉ body) (rest : Text) :
    rawTexts (body ++ '\n' :: rest) = (body ++ ['\n']) :: rawTexts rest := by
  have happend : rawTexts (body ++ ['\n'] ++ rest) = rawTexts (body ++ ['\n']) ++ rawTexts rest :=
    rawTexts_append (.inr (by simp)) rest
  rw [rawTexts_line h] at happend
  simpa using happend

/-- The document line by line. -/
theorem documentInduction {motive : Text → Prop} (nil : motive [])
    (last : ∀ body, body ≠ [] → '\n' ∉ body → motive body)
    (line : ∀ body rest, '\n' ∉ body → motive rest → motive (body ++ '\n' :: rest))
    (document : Text) : motive document := by
  suffices h : ∀ body, '\n' ∉ body → motive (body ++ document) by
    simpa using h [] List.not_mem_nil
  induction document with
  | nil =>
      intro body hbody
      rw [List.append_nil]
      by_cases hne : body = []
      · exact hne ▸ nil
      · exact last body hne hbody
  | cons c cs ih =>
      intro body hbody
      by_cases hc : c = '\n'
      · subst hc
        exact line body cs hbody (by simpa using ih [] List.not_mem_nil)
      · have hmore : '\n' ∉ body ++ [c] := by simp [hbody, Ne.symm hc]
        simpa using ih (body ++ [c]) hmore

theorem ofRaw_line (body : Text) :
    ofRaw (body ++ ['\n']) = ⟨(Text.beforeLast? '\r' body).getD body, true⟩ := by
  simp [ofRaw, Text.beforeLast?]

theorem ofRaw_last {body : Text} (h : '\n' ∉ body) : ofRaw body = ⟨body, false⟩ := by
  have hlast : body.getLast? ≠ some '\n' := fun hlast => h (List.mem_of_getLast? hlast)
  simp [ofRaw, Text.beforeLast?, hlast]

theorem ofDocument_line {body : Text} (h : '\n' ∉ body) (rest : Text) :
    ofDocument (body ++ '\n' :: rest) = ofRaw (body ++ ['\n']) :: ofDocument rest := by
  simp [ofDocument, rawTexts_cons h]

theorem ofDocument_last {body : Text} (hne : body ≠ []) (h : '\n' ∉ body) :
    ofDocument body = [⟨body, false⟩] := by
  simp [ofDocument, rawTexts_of_newline_notMem h hne, ofRaw_last h]

theorem prefix_of_ofRaw (body : Text) : (ofRaw (body ++ ['\n'])).text <+: body := by
  rw [ofRaw_line, Text.beforeLast?]
  split
  · exact List.dropLast_prefix body
  · exact List.prefix_rfl

theorem newline_notMem_text {document : Text} : ∀ line ∈ ofDocument document, '\n' ∉ line.text := by
  induction document using documentInduction with
  | nil => exact fun _ h => by cases h
  | last body hne hbody =>
      rw [ofDocument_last hne hbody]
      simpa using hbody
  | line body rest hbody ih =>
      rw [ofDocument_line hbody]
      exact List.forall_mem_cons.mpr ⟨fun hmem => hbody ((prefix_of_ofRaw body).mem hmem), ih⟩

/-- The characters of a line are characters of its document. -/
theorem notMem_text {c : Char} {document : Text} (h : c ∉ document) :
    ∀ line ∈ ofDocument document, c ∉ line.text := by
  induction document using documentInduction with
  | nil => exact fun _ h => by cases h
  | last body hne hbody =>
      rw [ofDocument_last hne hbody]
      simpa using h
  | line body rest hbody ih =>
      rw [List.mem_append, not_or] at h
      rw [ofDocument_line hbody]
      exact List.forall_mem_cons.mpr ⟨fun hmem => h.1 ((prefix_of_ofRaw body).mem hmem),
        ih (List.not_mem_of_not_mem_cons h.2)⟩

theorem getLast?_of_unterminated {document : Text} : ∀ line ∈ ofDocument document,
    line.terminated = false → (ofDocument document).getLast? = some line := by
  induction document using documentInduction with
  | nil => exact fun _ h => by cases h
  | last body hne hbody =>
      rw [ofDocument_last hne hbody]
      simp
  | line body rest hbody ih =>
      rw [ofDocument_line hbody]
      refine List.forall_mem_cons.mpr ⟨fun hopen => ?_, fun line hmem hopen => ?_⟩
      · rw [ofRaw_line] at hopen
        cases hopen
      · rw [List.getLast?_cons_of_ne_nil (List.ne_nil_of_mem hmem)]
        exact ih line hmem hopen

theorem terminated_of_getLast? {document : Text} (h : document.getLast? = some '\n') :
    ∀ line ∈ ofDocument document, line.terminated = true := by
  induction document using documentInduction with
  | nil => cases h
  | last body hne hbody => exact absurd (List.mem_of_getLast? h) hbody
  | line body rest hbody ih =>
      rw [ofDocument_line hbody]
      refine List.forall_mem_cons.mpr ⟨by rw [ofRaw_line], fun line hmem => ?_⟩
      have hrest : rest ≠ [] := by
        rintro rfl
        cases hmem
      refine ih ?_ line hmem
      rwa [List.getLast?_append_of_ne_nil _ (List.cons_ne_nil _ _),
        List.getLast?_cons_of_ne_nil hrest] at h

end Line

/-! ## Statements -/

namespace Statement

variable {accept : Line → Bool} {line : Line} {following lines : List Line}

/-- What holds of the statement that starts at any line holds of all statements. -/
theorem forall_mem_ofLines {P : Statement → Prop}
    (h : ∀ above line following, lines = above ++ line :: following → P (first line following)) :
    ∀ statement ∈ ofLines lines, P statement := by
  induction lines using ofLines.induct with
  | case1 => rw [ofLines]; exact fun _ h => by cases h
  | case2 line following ih =>
      rw [ofLines]
      refine List.forall_mem_cons.mpr ⟨h [] line following rfl, ih fun above next rest heq => ?_⟩
      have hsplit : following
          = following.take ((first line following).span - 1) ++ (above ++ next :: rest) := by
        rw [← heq, List.take_append_drop]
      exact h (line :: following.take ((first line following).span - 1) ++ above) next rest
        (by rw [List.append_assoc, List.cons_append, ← hsplit])

theorem of_mem_absorb {content : Text} (h : content ∈ (absorb accept lines).1) :
    ∃ line ∈ lines, line.isBlank = false ∧ accept line = true ∧ content = line.stripped := by
  induction lines with
  | nil => cases h
  | cons line rest ih =>
      have hlater : content ∈ (absorb accept rest).1 →
          ∃ l ∈ line :: rest, l.isBlank = false ∧ accept l = true ∧ content = l.stripped := by
        intro hmem
        obtain ⟨l, hl, haccept⟩ := ih hmem
        exact ⟨l, List.mem_cons_of_mem line hl, haccept⟩
      simp only [absorb] at h
      split at h
      · split at h
        · cases h
        · rename_i contents taken heq
          exact hlater (heq ▸ h)
      · rename_i hblank
        split at h
        · rename_i haccept
          rcases List.mem_cons.mp h with rfl | h
          · exact ⟨line, List.mem_cons_self, by simpa using hblank, haccept, rfl⟩
          · exact hlater h
        · cases h

theorem of_mem_blockContent {indent : Nat} {content : Text}
    (h : content ∈ (blockContent indent lines).1) :
    ∃ line ∈ lines, indent < line.indent ∧ Kind.of line.stripped = .text
      ∧ content = line.stripped := by
  unfold blockContent at h
  split at h
  · obtain ⟨line, hline, _, haccept, rfl⟩ := of_mem_absorb h
    simp only [Bool.and_eq_true, decide_eq_true_eq] at haccept
    exact ⟨line, hline, haccept.1.1, haccept.1.2, rfl⟩
  · cases h

theorem infix_of_withoutComma (content : Text) : withoutComma content <:+: content := by
  refine (Text.trimEnd_prefix_self _).isInfix.trans ?_
  unfold Text.beforeLast?
  split
  · exact (List.dropLast_prefix content).isInfix
  · exact List.infix_rfl

theorem of_mem_blockAttributes? {indent taken : Nat} {fragments : List Text} {fragment : Text}
    (h : blockAttributes? indent lines = some (fragments, taken)) (hmem : fragment ∈ fragments) :
    ∃ line ∈ lines, fragment <:+: line.text := by
  induction lines generalizing fragments taken with
  | nil => cases h
  | cons line rest ih =>
      have hlater : ∀ {inner : List Text × Nat}, blockAttributes? indent rest = some inner →
          fragment ∈ inner.1 → ∃ l ∈ line :: rest, fragment <:+: l.text := by
        intro inner hinner hmem
        obtain ⟨l, hl, hpart⟩ := ih hinner hmem
        exact ⟨l, List.mem_cons_of_mem line hl, hpart⟩
      simp only [blockAttributes?] at h
      split at h
      · obtain ⟨inner, hinner, heq⟩ := Option.map_eq_some_iff.mp h
        cases heq
        exact hlater hinner hmem
      · split at h
        · cases h
          cases hmem
        · split at h
          · cases h
          · obtain ⟨inner, hinner, heq⟩ := Option.map_eq_some_iff.mp h
            cases heq
            simp only at hmem
            split at hmem
            · exact hlater hinner hmem
            · rcases List.mem_cons.mp hmem with rfl | hmem
              · exact ⟨line, List.mem_cons_self,
                  (infix_of_withoutComma _).trans (Text.trim_infix_self line.text)⟩
              · exact hlater hinner hmem

theorem notMem_contents {c : Char} (hc : c ≠ ' ') {contents : List Text}
    (h : ∀ content ∈ contents, c ∉ content) : c ∉ contents.flatMap (' ' :: ·) := by
  intro hmem
  obtain ⟨content, hcontent, hmem⟩ := List.mem_flatMap.mp hmem
  rcases List.mem_cons.mp hmem with hblank | hmem
  · exact hc hblank
  · exact h content hcontent hmem

/-- A statement holds no character that is neither on its lines nor put between their contents. -/
theorem notMem_first {c : Char} (hc : c ∉ " ,\x7b\x7d".toList) (hline : c ∉ line.text)
    (hfollowing : ∀ next ∈ following, c ∉ next.text) : c ∉ (first line following).text := by
  obtain ⟨hspace, hcomma, hopen, hclose⟩ : c ≠ ' ' ∧ c ≠ ',' ∧ c ≠ '\x7b' ∧ c ≠ '\x7d' := by simpa using hc
  unfold first
  split
  · rename_i statement hblock
    obtain ⟨element, fragments, taken, hopener, hattributes, htext, _⟩ := of_block? hblock
    have hblanks : c ∉ line.text.takeWhile Text.isBlank :=
      fun hmem => hline ((List.takeWhile_prefix _).mem hmem)
    have helement : c ∉ element := by
      obtain ⟨_, hopener⟩ := Option.ite_none_right_eq_some.mp hopener
      cases hopener
      exact fun hmem => hline ((Text.trim_infix_self line.text).mem
        ((List.takeWhile_prefix _).mem ((Text.trimEnd_prefix_self _).mem hmem)))
    have hfragments : c ∉ Text.join [',', ' '] fragments := by
      refine Text.notMem_join (by simp [hcomma, hspace]) fun fragment hfragment hmem => ?_
      obtain ⟨l, hl, hpart⟩ := of_mem_blockAttributes? hattributes hfragment
      exact hfollowing l hl (hpart.mem hmem)
    have hcontents : c ∉ (blockContent line.indent (following.drop taken)).1.flatMap (' ' :: ·) := by
      refine notMem_contents hspace fun content hcontent hmem => ?_
      obtain ⟨l, hl, _, _, rfl⟩ := of_mem_blockContent hcontent
      exact hfollowing l (List.mem_of_mem_drop hl) ((Text.trim_infix_self l.text).mem hmem)
    rw [htext]
    simp [hblanks, helement, hfragments, hcontents, hspace, hopen, hclose]
  · split
    · have hstart : c ∉ Text.trimEnd line.text :=
        fun hmem => hline ((Text.trimEnd_prefix_self _).mem hmem)
      have hcontents : c ∉ (absorb (fun next => line.indent < next.indent) following).1.flatMap
          (' ' :: ·) := by
        refine notMem_contents hspace fun content hcontent hmem => ?_
        obtain ⟨l, hl, _, _, rfl⟩ := of_mem_absorb hcontent
        exact hfollowing l hl ((Text.trim_infix_self l.text).mem hmem)
      rw [text_continued]
      simp [hstart, hcontents]
    · exact hline

/-- A statement is one line, whatever it is folded from. -/
theorem newline_notMem_first (hline : '\n' ∉ line.text)
    (hfollowing : ∀ next ∈ following, '\n' ∉ next.text) : '\n' ∉ (first line following).text :=
  notMem_first (by decide) hline hfollowing

theorem notMem_text {c : Char} (hc : c ∉ " ,\x7b\x7d".toList) (h : ∀ line ∈ lines, c ∉ line.text) :
    ∀ statement ∈ ofLines lines, c ∉ statement.text := by
  refine forall_mem_ofLines fun above line following heq => ?_
  rw [heq] at h
  obtain ⟨_, hrest⟩ := List.forall_mem_append.mp h
  obtain ⟨hline, hfollowing⟩ := List.forall_mem_cons.mp hrest
  exact notMem_first hc hline hfollowing

theorem newline_notMem_text {document : Text} :
    ∀ statement ∈ ofDocument document, '\n' ∉ statement.text :=
  notMem_text (by decide) Line.newline_notMem_text

/-- If the document does not end within a blank line, every blank statement has its newline. -/
theorem terminated_of_isBlank {document : Text}
    (hlast : ∀ line ∈ (Line.ofDocument document).getLast?, line.isBlank = true →
      line.terminated = true) :
    ∀ statement ∈ ofDocument document, statement.isBlank = true → statement.terminated = true := by
  refine forall_mem_ofLines fun above line following heq hb => ?_
  have hline : line ∈ Line.ofDocument document := by simp [heq]
  cases hblank : line.isBlank with
  | false => rw [isBlank_first following hblank] at hb; cases hb
  | true =>
      rw [first_of_isBlank following hblank]
      cases hopen : line.terminated with
      | true => exact hopen
      | false =>
          have hend := hlast line (Line.getLast?_of_unterminated line hline hopen) hblank
          rw [hopen] at hend
          cases hend

/-- The statements of some lines take all of them, each as many as it spans. -/
theorem sum_span_ofLines (lines : List Line) : ((ofLines lines).map span).sum = lines.length := by
  induction lines using ofLines.induct with
  | case1 => rw [ofLines]; rfl
  | case2 line following ih =>
      have hle := span_first_le line following
      have hpos := one_le_span_first line following
      rw [ofLines, List.map_cons, List.sum_cons, ih, List.length_drop, List.length_cons]
      omega

end Statement

end Haml
