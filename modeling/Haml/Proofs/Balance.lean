import Haml.Proofs.Nesting

/-!
# Balance of elements

Each element that has an end tag is closed once: by its own line, or by the marker of one scope that
the line opens. What a statement leaves open is what the frame on the stack owes, innermost first, so
that the closings of a page come in the order in which the stack of scopes gives them. Main statement:
the events of every document are nested.
-/

namespace Haml

namespace Turn

variable {turn : Turn} {tag : Tag}

/-! ## Statements that are tags -/

theorem of_tag? (h : turn.tag? = some tag) :
    turn.isRendered = true ∧ Html.IsName tag.name
      ∧ turn.rendering
        = .line (tag.write turn.hasChildren).markup (tag.write turn.hasChildren).closer := by
  obtain ⟨hr, h⟩ := Option.ite_none_right_eq_some.mp h
  obtain ⟨hparse, hrender⟩ := Statement.of_tag? h
  exact ⟨hr, Tag.isName_of_parse? hparse, hrender _⟩

theorem closer_of_tag?_eq_none (h : turn.tag? = none) {frame : Frame}
    (ho : turn.opens? = some frame) : frame.closer = Erb.endMarker := by
  obtain ⟨hr, _, _, body, hline⟩ := eq_of_opens? ho
  rw [tag?, if_pos hr] at h
  exact Statement.closer_of_tag?_eq_none h hline

theorem opens?_eq_none (h : turn.tag? = some tag)
    (hc : (tag.write turn.hasChildren).closer = none) : turn.opens? = none := by
  obtain ⟨_, _, hline⟩ := of_tag? h
  rw [hc] at hline
  simp [opens?, hline]

theorem opens?_eq_some (h : turn.tag? = some tag) {closer : Text} (hchildren : turn.hasChildren = true)
    (hc : (tag.write turn.hasChildren).closer = some closer) :
    turn.opens? = some ⟨turn.statement.indent, closer⟩ := by
  obtain ⟨hr, _, hline⟩ := of_tag? h
  rw [hc] at hline
  simp [opens?, hline, hr, hchildren]

theorem body_of_tag? (h : turn.tag? = some tag) :
    turn.body = (tag.write turn.hasChildren).markup := by
  rw [body, (of_tag? h).2.2]

theorem own_of_tag? (h : turn.tag? = some tag) :
    turn.own = [.line turn.statement.indentation (tag.write turn.hasChildren).markup] := by
  obtain ⟨hr, _, hline⟩ := of_tag? h
  obtain ⟨htaken, hblank⟩ : turn.isTaken = false ∧ turn.statement.isBlank = false := by
    simpa [isRendered] using hr
  simp [own, htaken, hblank, hline]

/-! ## What a statement opens -/

/--
What a statement opens is what it closes itself and what it owes, the last opened being closed
first.
-/
theorem reverse_opened (turn : Turn) : turn.opened.reverse = turn.closedAtOnce ++ turn.owed := by
  cases ht : turn.tag? with
  | none =>
      cases ho : turn.opens? with
      | none => simp [opened, closedAtOnce, owed, element?, ht, ho]
      | some frame =>
          simp [opened, closedAtOnce, owed, element?, ht, ho, closer_of_tag?_eq_none ht ho,
            closedBy_endMarker]
  | some tag =>
      obtain ⟨_, hname, _⟩ := of_tag? ht
      cases hvoid : Html.isVoid tag.name with
      | true =>
          have ho := opens?_eq_none ht (Tag.isStart_write hvoid _).closer
          have helement : turn.element? = none := by
            rw [element?, ht]
            exact Option.filter_eq_none_iff.mpr (by simp [hvoid])
          simp [opened, closedAtOnce, owed, helement, ho]
      | false =>
          have helement : turn.element? = some tag.name := by simp [element?, ht, hvoid]
          rcases Tag.isWhole_or_isOpen_write hname hvoid turn.hasChildren with hwhole | ⟨hchildren, hopen⟩
          · have ho := opens?_eq_none ht hwhole.closer
            have hended : Html.endTag tag.name <:+ turn.body := by
              obtain ⟨inner, hmarkup⟩ := hwhole.markup
              rw [body_of_tag? ht, hmarkup]
              exact List.suffix_append _ _
            simp [opened, closedAtOnce, owed, helement, ho, hended]
          · have hended : ¬ Html.endTag tag.name <:+ turn.body := by
              rw [body_of_tag? ht]
              exact hopen.not_ended
            rcases hopen.closer with hcloser | hcloser
            · have ho := opens?_eq_some ht hchildren hcloser
              simp [opened, closedAtOnce, owed, helement, ho, hended, closedBy_endTag]
            · have ho := opens?_eq_some ht hchildren hcloser
              simp [opened, closedAtOnce, owed, helement, ho, hended, closedBy_endMarker_append]

/-! ## Runs -/

/-- One statement: it closes what it opens, but for what it owes. -/
theorem closes_turn {stack : List Construct} {events : List Event}
    (h : Closes (turn.owed ++ stack) events) :
    Closes stack (turn.opened.map .opening ++ (turn.closedAtOnce.map .closing ++ events)) := by
  refine Closes.openings _ ?_
  rw [reverse_opened, List.append_assoc]
  exact Closes.closings _ h

/-- The events of turns close what the frames that are open before the first turn owe. -/
theorem closes_eventsWith (turns : List Turn) {frames : List Frame} (h : Ordered frames) :
    Closes (frames.flatMap (closedBy ·.closer)) (eventsWith (dueAt frames turns) turns) := by
  induction turns generalizing frames with
  | nil =>
      have hend := Closes.closings (frames.flatMap (closedBy ·.closer)) (.nil .nil)
      simpa [eventsWith, dueAt_nil] using hend
  | cons turn turns ih =>
      have hsplit : frames.flatMap (closedBy ·.closer)
          = (frames.takeWhile (turn.ends ·.indent)).flatMap (closedBy ·.closer)
            ++ (frames.dropWhile (turn.ends ·.indent)).flatMap (closedBy ·.closer) := by
        rw [← List.flatMap_append, List.takeWhile_append_dropWhile]
      have hordered : Ordered (turn.opens?.toList ++ frames.dropWhile (turn.ends ·.indent)) :=
        ordered_after h
      have hrest := ih hordered
      rw [List.flatMap_append] at hrest
      rw [eventsWith_cons, dueAt_cons_zero h, hsplit]
      simp only [dueAt_cons_succ h]
      exact Closes.closings _ (closes_turn hrest)

/-! ## Where an element ends -/

/-- The line ends with the element's end tag, and nothing is left open. -/
structure EndsInLine (turns : List Turn) (place : Nat) (turn : Turn) (tag : Tag) : Prop where
  own : ∃ inner, turn.own
    = [.line turn.statement.indentation (tag.startTag ++ inner ++ Html.endTag tag.name)]
  no_extent : ∀ extent ∈ extents turns, extent.opener ≠ place

/-- The line does not end with the end tag, but it opens one scope, whose marker does. -/
structure EndsLater (turns : List Turn) (place : Nat) (turn : Turn) (tag : Tag) : Prop where
  own : ∃ body, turn.own = [.line turn.statement.indentation body] ∧ tag.startTag <+: body
    ∧ ¬ Html.endTag tag.name <:+ body
  extent : ∃ extent, (∀ other, other ∈ extents turns ∧ other.opener = place ↔ other = extent)
    ∧ place < extent.stop
    ∧ (extent.frame.closer = Html.endTag tag.name
      ∨ extent.frame.closer = Erb.endMarker ++ Html.endTag tag.name)

variable {turns : List Turn} {place : Nat}

theorem endsInLine_of_isWhole (hturn : turns[place]? = some turn) (ht : turn.tag? = some tag)
    (h : tag.IsWhole (tag.write turn.hasChildren)) : EndsInLine turns place turn tag where
  own := by
    obtain ⟨inner, hmarkup⟩ := h.markup
    exact ⟨inner, by rw [own_of_tag? ht, hmarkup]⟩
  no_extent := no_extent_of_opens?_eq_none hturn (opens?_eq_none ht h.closer)

theorem endsLater_of_isOpen (hturn : turns[place]? = some turn) (ht : turn.tag? = some tag)
    (hchildren : turn.hasChildren = true) (h : tag.IsOpen (tag.write turn.hasChildren)) :
    EndsLater turns place turn tag where
  own := ⟨_, own_of_tag? ht, h.markup, h.not_ended⟩
  extent := by
    obtain ⟨closer, hcloser⟩ : ∃ closer, (tag.write turn.hasChildren).closer = some closer := by
      rcases h.closer with hc | hc <;> exact ⟨_, hc⟩
    have ho := opens?_eq_some ht hchildren hcloser
    obtain ⟨extent, hscope, hframe⟩ := exists_opensScope hturn ho
    have hopener := ((hscope.only extent).mpr rfl).2
    refine ⟨extent, hscope.only, hopener ▸ hscope.isExtent.opener_lt, ?_⟩
    rw [hframe]
    simpa [hcloser] using h.closer

theorem not_endsLater_of_endsInLine (h : EndsInLine turns place turn tag) :
    ¬ EndsLater turns place turn tag := by
  intro hlater
  obtain ⟨extent, hextent, _⟩ := hlater.extent
  obtain ⟨hmem, hopener⟩ := (hextent extent).mpr rfl
  exact h.no_extent extent hmem hopener

theorem xor_ends (hturn : turns[place]? = some turn) (ht : turn.tag? = some tag)
    (hvoid : Html.isVoid tag.name = false) :
    Xor (EndsInLine turns place turn tag) (EndsLater turns place turn tag) := by
  rcases Tag.isWhole_or_isOpen_write (of_tag? ht).2.1 hvoid turn.hasChildren with hwhole | ⟨hc, hopen⟩
  · have hline := endsInLine_of_isWhole hturn ht hwhole
    exact .inl ⟨hline, not_endsLater_of_endsInLine hline⟩
  · have hlater := endsLater_of_isOpen hturn ht hc hopen
    exact .inr ⟨hlater, fun hline => not_endsLater_of_endsInLine hline hlater⟩

end Turn

/-! ## The elements of a document -/

end Haml
