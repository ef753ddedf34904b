import Haml.Proofs.Stack

/-!
# Stacks of scopes by their histories

A stack that is only pushed to in order, closed for lines and finished keeps its frames in order, also if several
of them are of one indent. So a line ends all frames that are too deep for it, wherever they stand, although the
stack is only looked at from the innermost frame outwards.
-/

namespace Haml

/-- A line that ends a frame ends all that are as deep. -/
theorem Frame.endsAt_mono {inner outer : Frame} {indent : Nat} {continuation : Bool}
    (hle : outer.indent ≤ inner.indent) (h : outer.endsAt indent continuation = true) :
    inner.endsAt indent continuation = true := by
  cases continuation with
  | true => exact decide_eq_true (Nat.lt_of_lt_of_le (of_decide_eq_true h) hle)
  | false => exact decide_eq_true (Nat.le_trans (of_decide_eq_true h) hle)

namespace Scopes

/-- The stacks that come of pushing, closing and finishing, where no frame is pushed onto a deeper one. -/
inductive Reached : Scopes → Prop
  | empty : Reached empty
  | push {scopes : Scopes} {frame : Frame} (h : Reached scopes)
      (hframe : ∀ top ∈ scopes.frames.head?, top.indent ≤ frame.indent) : Reached (scopes.push frame)
  | closeFor {scopes : Scopes} (h : Reached scopes) (indent : Nat) (continuation : Bool) :
      Reached (scopes.closeFor indent continuation).2
  | finish {scopes : Scopes} (h : Reached scopes) : Reached scopes.finish.2

variable {scopes : Scopes}

namespace Reached

/-- No frame is deeper than one inside of it. -/
theorem pairwise (h : Reached scopes) :
    scopes.frames.Pairwise fun inner outer => outer.indent ≤ inner.indent := by
  induction h with
  | empty => exact List.Pairwise.nil
  | @push scopes frame _ hframe ih =>
      refine List.pairwise_cons.mpr ⟨fun outer houter => ?_, ih⟩
      cases hframes : scopes.frames with
      | nil =>
          rw [hframes] at houter
          cases houter
      | cons top rest =>
          rw [hframes] at houter ih
          have htop : top.indent ≤ frame.indent := hframe top (by rw [hframes]; rfl)
          rcases List.mem_cons.mp houter with rfl | houter
          · exact htop
          · exact Nat.le_trans ((List.pairwise_cons.mp ih).1 outer houter) htop
  | closeFor _ indent continuation ih => exact ih.sublist (List.dropWhile_sublist _)
  | finish _ _ => exact List.Pairwise.nil

/-- Each frame that has been opened is closed or still there. -/
theorem opened_eq (h : Reached scopes) : scopes.opened = scopes.closed + scopes.frames.length := by
  induction h with
  | empty => rfl
  | @push scopes frame _ _ ih => simp only [Scopes.push, ih, List.length_cons, Nat.add_assoc]
  | @closeFor scopes _ indent continuation ih =>
      have hlength := congrArg List.length
        (List.takeWhile_append_dropWhile (p := (·.endsAt indent continuation)) (l := scopes.frames))
      rw [List.length_append] at hlength
      simp only [Scopes.closeFor, ih, ← hlength, Nat.add_assoc]
  | finish _ ih => exact ih

end Reached

/--
Closing a stack for a line leaves the frames that are less deep than the line, or just as deep if the line goes
on with a block, in their order. The closers of all others are written, the last pushed first, each at its own
indent. Each frame that was ever opened is closed or on the stack, and finishing leaves none on it.
-/
theorem closeFor_of_reached (h : Reached scopes) (indent : Nat) (continuation : Bool) :
    (scopes.closeFor indent continuation).2.frames
        = scopes.frames.filter
            (fun frame => if continuation then frame.indent ≤ indent else frame.indent < indent)
      ∧ (scopes.closeFor indent continuation).1
        = (scopes.frames.filter
            (fun frame => if continuation then indent < frame.indent else indent ≤ frame.indent)).map
              (fun frame => .indented frame.indent frame.closer)
      ∧ scopes.opened = scopes.closed + scopes.frames.length
      ∧ scopes.finish.1 = scopes.frames.map (fun frame => .indented frame.indent frame.closer)
      ∧ scopes.finish.2.frames = [] := by
  have hends : scopes.frames.Pairwise fun inner outer =>
      outer.endsAt indent continuation = true → inner.endsAt indent continuation = true :=
    h.pairwise.imp Frame.endsAt_mono
  refine ⟨?_, ?_, h.opened_eq, rfl, rfl⟩
  · refine (dropWhile_eq_filter_not hends).trans (List.filter_congr fun frame _ => ?_)
    grind [Frame.endsAt]
  · exact congrArg (List.map Frame.closeLine) (takeWhile_eq_filter hends)

/-- Two frames of one indent, of which a line that goes on with a block ends none. -/
theorem closeFor_of_reached_twins :
    let scopes := ((empty.push ⟨0, "</ul>".toList⟩).push ⟨2, "</li>".toList⟩).push ⟨2, "<% end %>".toList⟩
    scopes.Reached
      ∧ (scopes.closeFor 2 true).2.frames = scopes.frames
      ∧ (scopes.closeFor 2 false).1
        = [.indented 2 "<% end %>".toList, .indented 2 "</li>".toList] := by
  intro scopes
  have hreached : scopes.Reached :=
    .push (.push (.push .empty (by decide)) (by decide)) (by decide)
  exact ⟨hreached, (closeFor_of_reached hreached 2 true).1.trans (by decide),
    (closeFor_of_reached hreached 2 false).2.1.trans (by decide)⟩

end Scopes

end Haml
