import Haml.Proofs.Turn

/-!
# The stack of open scopes

Seen from the innermost frame outwards, the indents of the open scopes decrease strictly. A statement
that opens a scope is not one that goes on with a block, so it has ended every scope that is as deep
as itself; this is why the order is strict. On an ordered stack the frames that a statement ends are
exactly those on top.
-/

namespace Haml

section

variable {α : Type} {p : α → Bool} {l : List α}

/-- If what comes before an element that satisfies `p` also does, taking from the front is filtering. -/
theorem takeWhile_eq_filter (h : l.Pairwise fun a b => p b = true → p a = true) :
    l.takeWhile p = l.filter p := by
  induction l with
  | nil => rfl
  | cons a l ih =>
      obtain ⟨ha, hl⟩ := List.pairwise_cons.mp h
      cases hp : p a with
      | true => rw [List.takeWhile_cons_of_pos hp, List.filter_cons_of_pos hp, ih hl]
      | false =>
          have hnone : l.filter p = [] := by
            refine List.filter_eq_nil_iff.mpr fun b hb hpb => ?_
            rw [ha b hb hpb] at hp
            cases hp
          rw [List.takeWhile_cons_of_neg (by simp [hp]), List.filter_cons_of_neg (by simp [hp]), hnone]

theorem dropWhile_eq_filter_not (h : l.Pairwise fun a b => p b = true → p a = true) :
    l.dropWhile p = l.filter (!p ·) := by
  induction l with
  | nil => rfl
  | cons a l ih =>
      obtain ⟨ha, hl⟩ := List.pairwise_cons.mp h
      cases hp : p a with
      | true =>
          rw [List.dropWhile_cons_of_pos hp, List.filter_cons_of_neg (by simp [hp]), ih hl]
      | false =>
          have hall : l.filter (!p ·) = l := by
            refine List.filter_eq_self.mpr fun b hb => ?_
            cases hpb : p b with
            | false => rfl
            | true => rw [ha b hb hpb] at hp; cases hp
          rw [List.dropWhile_cons_of_neg (by simp [hp]), List.filter_cons_of_pos (by simp [hp]), hall]

end

/-! ## Order -/

/-- Each frame is deeper than the frames outside of it; the innermost one comes first. -/
def Ordered (frames : List Frame) : Prop :=
  frames.Pairwise fun inner outer => outer.indent < inner.indent

/-- A line that goes on with a block is code, and owes nothing. -/
theorem Rendering.ofContent_of_isContinuation {content : Text}
    (h : Code.isContinuation content = true) (hasChildren : Bool) :
    ∃ body, Rendering.ofContent content hasChildren = .line body none := by
  have hkind : Kind.of content = .code := by
    cases content with
    | nil => simp [Code.isContinuation] at h
    | cons c cs =>
        by_cases hc : c = '-'
        case neg => simp [Code.isContinuation, hc] at h
        subst hc
        cases cs with
        | nil => rfl
        | cons d ds =>
            have hd : d ≠ '#' := by
              rintro rfl
              simp [Code.isContinuation] at h
            simp [Kind.of, hd]
  exact ⟨_, by simp only [Rendering.ofContent, hkind, Rendering.ofCode, h]; rfl⟩

namespace Turn

variable {turn : Turn} {frames : List Frame}

theorem eq_of_opens? {frame : Frame} (h : turn.opens? = some frame) :
    turn.isRendered = true ∧ turn.hasChildren = true ∧ frame.indent = turn.statement.indent
      ∧ ∃ body, turn.rendering = .line body (some frame.closer) := by
  unfold opens? at h
  split at h
  · rename_i hcond
    obtain ⟨hr, hc⟩ := Bool.and_eq_true_iff.mp hcond
    split at h
    · rename_i body closer hline
      cases h
      exact ⟨hr, hc, rfl, body, hline⟩
    · cases h
  · cases h

/-- A statement that opens a scope does not go on with a block. -/
theorem not_isContinuation_of_opens? {frame : Frame} (h : turn.opens? = some frame) :
    Code.isContinuation turn.statement.stripped = false := by
  obtain ⟨_, _, _, body, hline⟩ := eq_of_opens? h
  cases hc : Code.isContinuation turn.statement.stripped with
  | false => rfl
  | true =>
      obtain ⟨body', hline'⟩ := Rendering.ofContent_of_isContinuation hc turn.hasChildren
      rw [rendering, Statement.render, hline'] at hline
      cases hline

theorem ends_mono {i j : Nat} (hij : i ≤ j) (h : turn.ends i = true) : turn.ends j = true := by
  simp only [ends] at h ⊢
  grind

/-- On an ordered stack, what is outside of a frame that stays also stays. -/
theorem pairwise_ends (h : Ordered frames) :
    frames.Pairwise fun inner outer =>
      turn.ends outer.indent = true → turn.ends inner.indent = true :=
  h.imp fun hlt => ends_mono (Nat.le_of_lt hlt)

theorem takeWhile_ends (h : Ordered frames) :
    frames.takeWhile (turn.ends ·.indent) = frames.filter (turn.ends ·.indent) :=
  takeWhile_eq_filter (pairwise_ends h)

theorem dropWhile_ends (h : Ordered frames) :
    frames.dropWhile (turn.ends ·.indent) = frames.filter (!turn.ends ·.indent) :=
  dropWhile_eq_filter_not (pairwise_ends h)

/-- What a statement leaves open is not as deep as itself, unless it goes on with a block. -/
theorem lt_indent_of_mem_dropWhile (h : Ordered frames) (hr : turn.isRendered = true)
    (hc : Code.isContinuation turn.statement.stripped = false) {frame : Frame}
    (hmem : frame ∈ frames.dropWhile (turn.ends ·.indent)) :
    frame.indent < turn.statement.indent := by
  rw [dropWhile_ends h] at hmem
  have hstays : turn.ends frame.indent = false := by simpa using (List.mem_filter.mp hmem).2
  simp only [ends, hr, hc] at hstays
  grind

theorem ordered_after (h : Ordered frames) :
    Ordered (turn.opens?.toList ++ frames.dropWhile (turn.ends ·.indent)) := by
  have hrest : Ordered (frames.dropWhile (turn.ends ·.indent)) :=
    List.Pairwise.sublist (List.dropWhile_sublist _) h
  cases ho : turn.opens? with
  | none => exact hrest
  | some frame =>
      obtain ⟨hr, _, hindent, _⟩ := eq_of_opens? ho
      refine List.pairwise_cons.mpr ⟨fun outer houter => ?_, hrest⟩
      rw [hindent]
      exact lt_indent_of_mem_dropWhile h hr (not_isContinuation_of_opens? ho) houter

end Turn

end Haml
