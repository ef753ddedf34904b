import Haml.Proofs.BlockText
import Haml.Proofs.Source

/-!
# Comments in continued outputs

An output that goes on over lines is joined to one text before its comment is looked for, so that a comment
ends where the last of the lines ends, and not with its own line. Main statement: what is written for such
an output, and that its comment is that of one line exactly if this line is the last.
-/

namespace Haml

/-! ## Comments of longer texts -/

namespace Code

variable {s code remark : Text}

theorem hashCuts_cons (c : Char) (cs : Text) :
    hashCuts (c :: cs) = ((Text.after? " #".toList (c :: cs)).map fun rest => ([], rest)).toList
      ++ (hashCuts cs).map (Prod.map (c :: ·) id) := by
  rw [hashCuts]
  cases Text.after? " #".toList (c :: cs) <;> rfl

/-- A blank goes on with no opening of a comment. -/
theorem after?_append (c : Char) (cs t : Text) :
    Text.after? " #".toList (c :: (cs ++ ' ' :: t))
      = (Text.after? " #".toList (c :: cs)).map (· ++ ' ' :: t) := by
  by_cases hc : c = ' '
  · cases cs with
    | nil => simp [Text.after?]
    | cons d ds => by_cases hd : '#' = d <;> simp [Text.after?, hc, hd]
  · simp [Text.after?, Ne.symm hc]

/-- Behind a blank, a text is cut where it is cut by itself. -/
theorem hashCuts_append (s t : Text) :
    hashCuts (s ++ ' ' :: t)
      = (hashCuts s).map (Prod.map id (· ++ ' ' :: t)) ++ (hashCuts (' ' :: t)).map (Prod.map (s ++ ·) id) := by
  induction s with
  | nil => exact (List.map_id _).symm
  | cons c cs ih =>
      rw [List.cons_append, hashCuts_cons, hashCuts_cons, after?_append, ih, List.map_append, List.map_map,
        List.map_map, List.map_append, List.map_map, List.append_assoc]
      cases Text.after? " #".toList (c :: cs) <;> rfl

theorem isCommentCut_append (cut : Text × Text) (t : Text) :
    isCommentCut (Prod.map id (· ++ ' ' :: t) cut) = isCommentCut cut := by
  obtain ⟨before, rest⟩ := cut
  cases rest <;> rfl

theorem comment?_append (s t : Text) :
    comment? (s ++ ' ' :: t) = ((comment? s).map (Prod.map id (· ++ ' ' :: t))).or
      (((hashCuts (' ' :: t)).map (Prod.map (s ++ ·) id)).find? isCommentCut) := by
  have hsame : (isCommentCut ∘ Prod.map id (· ++ ' ' :: t)) = isCommentCut :=
    funext fun cut => isCommentCut_append cut t
  rw [comment?, hashCuts_append, List.find?_append, List.find?_map, hsame, comment?]

/-- A comment goes on over what comes behind a blank. -/
theorem comment?_append_of_some (h : comment? s = some (code, remark)) (t : Text) :
    comment? (s ++ ' ' :: t) = some (code, remark ++ ' ' :: t) := by
  rw [comment?_append, h]
  rfl

/-- A comment that was not there before comes with what stands behind the blank. -/
theorem suffix_of_comment?_append (h : comment? s = none) {t : Text}
    (hcomment : comment? (s ++ ' ' :: t) = some (code, remark)) : remark <:+ t := by
  rw [comment?_append, h] at hcomment
  obtain ⟨cut, hmem, heq⟩ := List.mem_map.mp (List.mem_of_find?_eq_some hcomment)
  cases heq
  rw [hashCuts_cons] at hmem
  rcases List.mem_append.mp hmem with hmem | hmem
  · obtain ⟨rest, hrest, rfl⟩ := Option.map_eq_some_iff.mp (Option.mem_toList.mp hmem)
    obtain ⟨_, rfl⟩ := List.cons.inj (Text.append_of_after? hrest)
    exact List.suffix_cons '#' rest
  · obtain ⟨inner, hinner, rfl⟩ := List.mem_map.mp hmem
    exact (suffix_of_mem_hashCuts hinner :)

end Code

namespace Statement

variable {line : Line} {following : List Line} {before after : List Text} {part code remark : Text}

/-! ## The lines of an output -/

/-- The code of an output and what stands on the lines that it goes on over. -/
def outputLines (line : Line) (following : List Line) : List Text :=
  Text.trim (line.stripped.drop 1) :: (absorb (fun next => line.indent < next.indent) following).1

/-- What stands on a line before its comment, if it has one. -/
def codeOf (text : Text) : Text :=
  match Code.comment? text with
  | some (code, _) => Text.trimEnd code
  | none => text

theorem isBlank_getLast?_of_suffix {contents : List Text}
    (h : contents <:+ (absorb (fun next => line.indent < next.indent) following).1) :
    ∀ c ∈ (contents.flatMap (' ' :: ·)).getLast?, Text.isBlank c = false :=
  isBlank_getLast?_contents fun _ hmem =>
    let ⟨next, _, hb, _, heq⟩ := of_mem_absorb (h.mem hmem)
    ⟨next, hb, heq⟩

theorem not_isBlank_of_continued (h : isContinued line.stripped = true) : line.isBlank = false := by
  refine List.isEmpty_eq_false_iff.mpr fun hnil => ?_
  rw [hnil] at h
  cases h

theorem first_of_continued (h : isContinued line.stripped = true) (following : List Line) :
    first line following = continued line following := by
  obtain ⟨hhead, _⟩ := Bool.and_eq_true_iff.mp h
  obtain ⟨rest, hrest⟩ := List.head?_eq_some_iff.mp (of_decide_eq_true hhead)
  have hopener : blockOpener? line.stripped = none := by
    rw [hrest]
    rfl
  simp [first, block?, hopener, h]

theorem stripped_of_continued (h : isContinued line.stripped = true) :
    (first line following).stripped = line.stripped
      ++ (absorb (fun next => line.indent < next.indent) following).1.flatMap (' ' :: ·) := by
  have hne : Text.trim line.text ≠ [] := Line.stripped_ne_nil (not_isBlank_of_continued h)
  rw [first_of_continued h, stripped, text_continued,
    Text.trim_trimEnd_append hne (isBlank_getLast?_of_suffix List.suffix_rfl), Line.stripped]

/-- The code of an output that goes on is what stands on its lines, with blanks in between. -/
theorem code_of_continued (h : isContinued line.stripped = true) (following : List Line) :
    Kind.of (first line following).stripped = .output
      ∧ Text.trim ((first line following).stripped.drop 1) = Text.join [' '] (outputLines line following) := by
  obtain ⟨hhead, hlast⟩ := Bool.and_eq_true_iff.mp h
  obtain ⟨rest, hrest⟩ := List.head?_eq_some_iff.mp (of_decide_eq_true hhead)
  rw [stripped_of_continued h, hrest]
  refine ⟨rfl, ?_⟩
  have hcomma : rest.getLast? = some ',' := by
    have hlast := of_decide_eq_true hlast
    rw [hrest] at hlast
    cases rest with
    | nil => cases hlast
    | cons c cs => simpa using hlast
  have hend : Text.trimEnd rest = rest := by
    refine Text.trimEnd_eq_self fun c hc => ?_
    rw [← Option.some.inj (hcomma.symm.trans hc)]
    decide
  have hne : Text.trim rest ≠ [] := by
    intro hnil
    exact absurd (Text.trim_eq_nil_iff.mp hnil ',' (List.mem_of_getLast? hcomma)) (by decide)
  have htrim := Text.trim_trimEnd_append hne (isBlank_getLast?_of_suffix
    (List.suffix_refl (absorb (fun next => line.indent < next.indent) following).1))
  rw [hend] at htrim
  rw [outputLines, Text.join_cons, hrest]
  exact htrim

/-- A continued output is rendered as the output of the code on all of its lines. -/
theorem render_of_continued (h : isContinued line.stripped = true) (following : List Line) (hasChildren : Bool) :
    (first line following).render hasChildren
      = Rendering.ofOutput (Text.join [' '] (outputLines line following)) := by
  obtain ⟨hkind, hcode⟩ := code_of_continued h following
  simp only [render, Rendering.ofContent, hkind, hcode]

/--
Whether an output keeps the comment of a line to that line: its comment is what stands there behind the hash,
and its expression holds the code of all lines after it.
-/
def KeepsComment (expression comment remark : Text) (after : List Text) : Prop :=
  comment = Text.trim remark ∧ ∀ text ∈ after, codeOf text <:+: expression

/--
The comment on a line of an output goes on over all lines after it, and nothing of these is left to the
expression. So the comment is kept to its line exactly if this is the last one.
-/
theorem keepsComment_iff (hcontinued : isContinued line.stripped = true)
    (hlines : outputLines line following = before ++ part :: after)
    (hbefore : Code.comment? (Text.join [' '] before) = none)
    (hpart : Code.comment? (Text.join [' '] (before ++ [part])) = some (code, remark)) (hasChildren : Bool) :
    ∃ expression comment closer,
      (first line following).render hasChildren
          = .line (Erb.output expression ++ ' ' :: Erb.comment comment) closer
        ∧ expression = Text.trimEnd code ∧ comment = Text.trim (Text.join [' '] (remark :: after))
        ∧ remark <:+ part ∧ (KeepsComment expression comment remark after ↔ after = []) := by
  obtain ⟨hkind, hcode⟩ := code_of_continued hcontinued following
  have hcomment : Code.comment? (Text.join [' '] (outputLines line following))
      = some (code, Text.join [' '] (remark :: after)) := by
    rw [hlines]
    cases after with
    | nil => simpa [Text.join] using hpart
    | cons next rest =>
        rw [List.append_cons, Text.join_append (by simp) (by simp), List.singleton_append,
          Code.comment?_append_of_some hpart, Text.join_cons_cons]
        rfl
  have hsuffix : remark <:+ part := by
    cases before with
    | nil => exact Code.suffix_of_comment? (by simpa [Text.join] using hpart)
    | cons first rest =>
        rw [Text.join_append (by simp) (by simp)] at hpart
        exact Code.suffix_of_comment?_append hbefore (by simpa [Text.join] using hpart)
  have hafter : after <:+ (absorb (fun next => line.indent < next.indent) following).1 := by
    rw [outputLines] at hlines
    cases before with
    | nil => exact (List.cons.inj hlines).2 ▸ List.suffix_rfl
    | cons first rest =>
        rw [(List.cons.inj hlines).2]
        exact (List.suffix_cons part after).trans (List.suffix_append rest _)
  have hline : (first line following).render hasChildren
      = .line (Erb.output (Text.trimEnd code)
            ++ ' ' :: Erb.comment (Text.trim (Text.join [' '] (remark :: after))))
          (Rendering.endIf (Code.hasDoBlock (Text.trimEnd code))) := by
    simp only [render, Rendering.ofContent, hkind, Rendering.ofOutput, hcode, hcomment]
  refine ⟨_, _, _, hline, rfl, rfl, hsuffix, fun hkeeps => ?_, fun hnil => ?_⟩
  · have htrim := hkeeps.1
    rw [Text.join_cons, Text.trim_append_eq_iff (isBlank_getLast?_of_suffix hafter)] at htrim
    cases after with
    | nil => rfl
    | cons next rest => simp at htrim
  · rw [hnil]
    exact ⟨by simp [Text.join], fun _ hmem => by cases hmem⟩

/-- A hash in a string literal is no comment, and the comment of the last line is kept to it. -/
theorem keepsComment_last :
    ∃ expression comment closer,
      (first ⟨"= link_to 'a # b',".toList, true⟩
          [⟨"  root_path,".toList, true⟩, ⟨"  class: 'nav' # the \"start".toList, true⟩]).render false
        = .line (Erb.output expression ++ ' ' :: Erb.comment comment) closer
      ∧ KeepsComment expression comment " the \"start".toList [] := by
  have hlines : outputLines ⟨"= link_to 'a # b',".toList, true⟩
      [⟨"  root_path,".toList, true⟩, ⟨"  class: 'nav' # the \"start".toList, true⟩]
      = ["link_to 'a # b',".toList, "root_path,".toList] ++ "class: 'nav' # the \"start".toList :: [] := by
    decide +kernel
  have hpart : Code.comment? "link_to 'a # b', root_path, class: 'nav' # the \"start".toList
      = some ("link_to 'a # b', root_path, class: 'nav'".toList, " the \"start".toList) := by
    decide +kernel
  obtain ⟨expression, comment, closer, hline, _, _, _, hkeeps⟩ :=
    keepsComment_iff (by decide +kernel) hlines (by decide +kernel) hpart false
  exact ⟨expression, comment, closer, hline, hkeeps.mpr rfl⟩

/-- An argument below a comment becomes part of the comment. -/
theorem not_keepsComment_of_argument :
    (convert "= link_to 'Home',\n  root_path, # the start page\n  class: 'nav'\n".toList).page
        = "<%= link_to 'Home', root_path, %> <%# the start page class: 'nav' %>\n".toList
      ∧ ¬ KeepsComment "link_to 'Home', root_path,".toList "the start page class: 'nav'".toList
        " the start page".toList ["class: 'nav'".toList] :=
  ⟨by decide +kernel, fun hkeeps => absurd hkeeps.1 (by decide)⟩

end Statement

end Haml
