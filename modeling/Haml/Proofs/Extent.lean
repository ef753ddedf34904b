import Haml.Proofs.Stack
import Mathlib.Data.List.Basic

/-!
# Extents of scopes

How far a scope extends is told from the turns alone, without a stack: from the statement that opens
it to the first later statement that ends it, or to the end of the document. Main statement: the page
is, place by place, the end of a filter, the closers of the scopes that stop there, and what the
statement itself becomes.
-/

namespace Haml

/-- A scope with the places where it starts and stops. A place is the number of turns before it. -/
@[ext]
structure Extent where
  opener : Nat
  /-- The place before which the scope is closed. -/
  stop : Nat
  frame : Frame
  deriving DecidableEq, Repr

namespace Turn

/--
The extent of the scope that the statement at a place opens. It stops at the least later place whose
statement ends it; if there is none, that is the number of turns.
-/
def extentAt? (turns : List Turn) (place : Nat) : Option Extent :=
  (turns[place]?.bind opens?).map fun frame =>
    ⟨place, place + 1 + (turns.drop (place + 1)).findIdx (·.ends frame.indent), frame⟩

def extents (turns : List Turn) : List Extent :=
  (List.range turns.length).filterMap (extentAt? turns)

/-- What it means to be an extent, said without computing it. -/
structure IsExtent (turns : List Turn) (extent : Extent) : Prop where
  opens : ∃ turn, turns[extent.opener]? = some turn ∧ turn.opens? = some extent.frame
  opener_lt : extent.opener < extent.stop
  lasts : ∀ place turn, extent.opener < place → place < extent.stop → turns[place]? = some turn →
    turn.ends extent.frame.indent = false
  stops : extent.stop = turns.length
    ∨ ∃ turn, turns[extent.stop]? = some turn ∧ turn.ends extent.frame.indent = true

/-- The extents that stop at a place, the one that starts last coming first. -/
def stoppingAt (turns : List Turn) (place : Nat) : List Extent :=
  ((extents turns).filter (·.stop = place)).reverse

/-- The page that turns make, the closers at each place being given. -/
def pageWith (closers : Nat → List Chunk) (filter : Option OpenFilter) (turns : List Turn) :
    List Chunk :=
  (turns.mapIdx fun place turn => turn.filterEnd ++ closers place ++ turn.own).flatten
    ++ (filterAtEnd filter turns).toList.map OpenFilter.closeLine ++ closers turns.length

def page (turns : List Turn) : List Chunk :=
  pageWith (fun place => (stoppingAt turns place).map (·.frame.closeLine)) none turns

/-! ## The least place whose statement ends a scope -/

theorem isExtent_of_extentAt? {turns : List Turn} {place : Nat} {extent : Extent}
    (h : extentAt? turns place = some extent) : IsExtent turns extent := by
  obtain ⟨frame, hopen, rfl⟩ := Option.map_eq_some_iff.mp h
  obtain ⟨turn, hturn, hframe⟩ := Option.bind_eq_some_iff.mp hopen
  have hlt : place < turns.length := (List.getElem?_eq_some_iff.mp hturn).1
  have hlen : (turns.drop (place + 1)).length = turns.length - (place + 1) := List.length_drop ..
  refine ⟨⟨turn, hturn, hframe⟩, by simp; omega, fun later t hlo hhi ht => ?_, ?_⟩
  · -- Earlier than the least index there is no statement that ends the scope.
    simp only at hlo hhi
    have hidx : later - (place + 1) < (turns.drop (place + 1)).findIdx (·.ends frame.indent) := by
      omega
    have hnot := List.not_of_lt_findIdx hidx
    have hget : (turns.drop (place + 1))[later - (place + 1)]? = some t := by
      rw [List.getElem?_drop, ← ht]
      congr 1
      omega
    rw [(List.getElem?_eq_some_iff.mp hget).2] at hnot
    simpa using hnot
  · rcases Nat.lt_or_ge ((turns.drop (place + 1)).findIdx (·.ends frame.indent))
      (turns.drop (place + 1)).length with hidx | hidx
    · refine .inr ⟨_, ?_, List.findIdx_getElem (w := hidx)⟩
      rw [← List.getElem?_eq_getElem, List.getElem?_drop]
    · left
      have : (turns.drop (place + 1)).findIdx (·.ends frame.indent) ≤ (turns.drop (place + 1)).length :=
        List.findIdx_le_length
      simp only
      omega

theorem opener_of_extentAt? {turns : List Turn} {place : Nat} {extent : Extent}
    (h : extentAt? turns place = some extent) : extent.opener = place := by
  obtain ⟨_, _, rfl⟩ := Option.map_eq_some_iff.mp h
  rfl

/-- A place has at most one extent, and it is the one of the statement there. -/
theorem mem_extents_at_iff {turns : List Turn} {place : Nat} {extent : Extent} :
    extent ∈ extents turns ∧ extent.opener = place ↔ extentAt? turns place = some extent := by
  constructor
  · rintro ⟨hmem, rfl⟩
    obtain ⟨place, _, hat⟩ := List.mem_filterMap.mp hmem
    rwa [opener_of_extentAt? hat]
  · intro hat
    obtain ⟨_, hopen, _⟩ := Option.map_eq_some_iff.mp hat
    obtain ⟨turn, hturn, _⟩ := Option.bind_eq_some_iff.mp hopen
    have hlt : place < turns.length := (List.getElem?_eq_some_iff.mp hturn).1
    exact ⟨List.mem_filterMap.mpr ⟨place, List.mem_range.mpr hlt, hat⟩, opener_of_extentAt? hat⟩

theorem extents_opener (turns : List Turn) :
    (extents turns).Pairwise fun first second => first.opener < second.opener := by
  refine List.pairwise_filterMap.mpr (List.pairwise_lt_range.imp fun hlt first hf second hs => ?_)
  rw [opener_of_extentAt? hf, opener_of_extentAt? hs]
  exact hlt

theorem IsExtent.frame_eq {turns : List Turn} {first second : Extent} (hf : IsExtent turns first)
    (hs : IsExtent turns second) (ho : first.opener = second.opener) :
    first.frame = second.frame := by
  obtain ⟨turn, hturn, hframe⟩ := hf.opens
  obtain ⟨turn', hturn', hframe'⟩ := hs.opens
  rw [ho, hturn', Option.some.injEq] at hturn
  rw [← hturn, hframe', Option.some.injEq] at hframe
  exact hframe.symm

theorem IsExtent.stop_le_stop {turns : List Turn} {first second : Extent} (hf : IsExtent turns first)
    (hs : IsExtent turns second) (ho : first.opener = second.opener) : second.stop ≤ first.stop := by
  by_contra hlt
  rcases hf.stops with hend | ⟨turn, hturn, hends⟩
  · rcases hs.stops with hend' | ⟨turn', hturn', _⟩
    · omega
    · have := (List.getElem?_eq_some_iff.mp hturn').1
      omega
  · have := hs.lasts first.stop turn (ho ▸ hf.opener_lt) (by omega) hturn
    rw [← hf.frame_eq hs ho, hends] at this
    cases this

theorem mem_extents_iff {turns : List Turn} {extent : Extent} :
    extent ∈ extents turns ↔ IsExtent turns extent := by
  constructor
  · intro h
    obtain ⟨_, _, hat⟩ := List.mem_filterMap.mp h
    exact isExtent_of_extentAt? hat
  · intro h
    obtain ⟨turn, hturn, hframe⟩ := h.opens
    obtain ⟨found, hat⟩ : ∃ found, extentAt? turns extent.opener = some found := by
      simp [extentAt?, hturn, hframe]
    have ho : found.opener = extent.opener := opener_of_extentAt? hat
    have hfound := isExtent_of_extentAt? hat
    have hstop : found.stop = extent.stop :=
      Nat.le_antisymm (h.stop_le_stop hfound ho.symm) (hfound.stop_le_stop h ho)
    have heq : found = extent := Extent.ext ho hstop (hfound.frame_eq h ho)
    exact heq ▸ (mem_extents_at_iff.mpr hat).1

/-- The statement at a place opens one scope, and this is its extent. -/
structure OpensScope (turns : List Turn) (place : Nat) (extent : Extent) : Prop where
  isExtent : IsExtent turns extent
  only : ∀ other, other ∈ extents turns ∧ other.opener = place ↔ other = extent

theorem exists_opensScope {turns : List Turn} {place : Nat} {turn : Turn} {frame : Frame}
    (hturn : turns[place]? = some turn) (ho : turn.opens? = some frame) :
    ∃ extent, OpensScope turns place extent ∧ extent.frame = frame := by
  obtain ⟨extent, hat⟩ : ∃ extent, extentAt? turns place = some extent := by
    simp [extentAt?, hturn, ho]
  have hextent := isExtent_of_extentAt? hat
  obtain ⟨opening, hopening, hframe⟩ := hextent.opens
  rw [opener_of_extentAt? hat, hturn, Option.some.injEq] at hopening
  rw [← hopening, ho, Option.some.injEq] at hframe
  refine ⟨extent, ⟨hextent, fun other => ?_⟩, hframe.symm⟩
  rw [mem_extents_at_iff, hat, Option.some.injEq, eq_comm]

theorem no_extent_of_opens?_eq_none {turns : List Turn} {place : Nat} {turn : Turn}
    (hturn : turns[place]? = some turn) (h : turn.opens? = none) :
    ∀ extent ∈ extents turns, extent.opener ≠ place := by
  intro extent hmem ho
  have hat := mem_extents_at_iff.mp ⟨hmem, ho⟩
  simp [extentAt?, hturn, h] at hat

end Turn

/-- The extent as seen from one place earlier. -/
def Extent.later (extent : Extent) : Extent :=
  ⟨extent.opener + 1, extent.stop + 1, extent.frame⟩

namespace Turn

/-! ## One turn after the other -/

theorem extentAt?_cons_zero (turn : Turn) (turns : List Turn) :
    extentAt? (turn :: turns) 0
      = turn.opens?.map fun frame => ⟨0, 1 + turns.findIdx (·.ends frame.indent), frame⟩ := by
  simp [extentAt?]

theorem extentAt?_cons_succ (turn : Turn) (turns : List Turn) (place : Nat) :
    extentAt? (turn :: turns) (place + 1) = (extentAt? turns place).map Extent.later := by
  simp only [extentAt?, List.getElem?_cons_succ, List.drop_succ_cons, Option.map_map]
  refine congrArg (Option.map · (turns[place]?.bind opens?)) (funext fun frame => ?_)
  simp [Extent.later]
  omega

theorem extents_cons (turn : Turn) (turns : List Turn) :
    extents (turn :: turns)
      = (turn.opens?.map fun frame =>
          (⟨0, 1 + turns.findIdx (·.ends frame.indent), frame⟩ : Extent)).toList
        ++ (extents turns).map Extent.later := by
  have hlater : (List.range turns.length).filterMap (extentAt? (turn :: turns) ∘ Nat.succ)
      = (extents turns).map Extent.later := by
    rw [extents, List.map_filterMap]
    exact List.filterMap_congr fun place _ => extentAt?_cons_succ turn turns place
  rw [extents, List.length_cons, List.range_succ_eq_map, List.filterMap_cons, List.filterMap_map,
    hlater, extentAt?_cons_zero]
  cases turn.opens? <;> rfl

theorem stoppingAt_cons_zero (turn : Turn) (turns : List Turn) :
    stoppingAt (turn :: turns) 0 = [] := by
  rw [stoppingAt, extents_cons]
  cases turn.opens? <;> simp [Extent.later]

theorem stoppingAt_cons_succ (turn : Turn) (turns : List Turn) (place : Nat) :
    (stoppingAt (turn :: turns) (place + 1)).map Extent.frame
      = (stoppingAt turns place).map Extent.frame
        ++ turn.opens?.toList.filter fun frame => turns.findIdx (·.ends frame.indent) = place := by
  have hlater : ((extents turns).map Extent.later).filter (·.stop = place + 1)
      = ((extents turns).filter (·.stop = place)).map Extent.later := by
    simp [List.filter_map, Function.comp_def, Extent.later]
  have hframe : (fun extent : Extent => extent.later.frame) = Extent.frame := rfl
  rw [stoppingAt, extents_cons, List.filter_append, hlater, List.reverse_append, List.map_append,
    stoppingAt, ← List.map_reverse, List.map_map]
  refine congrArg₂ (· ++ ·) rfl ?_
  cases turn.opens? with
  | none => rfl
  | some frame =>
      by_cases hstop : turns.findIdx (·.ends frame.indent) = place
      · simp [hstop, Nat.add_comm]
      · simp [hstop, Nat.add_comm 1]

/-! ## Frames that are open before the first turn -/

/-- The frames to be closed at a place, given the frames that are open before the first turn. -/
def dueAt (frames : List Frame) (turns : List Turn) (place : Nat) : List Frame :=
  (stoppingAt turns place).map Extent.frame
    ++ frames.filter fun frame => turns.findIdx (·.ends frame.indent) = place

theorem dueAt_nil (frames : List Frame) : dueAt frames [] 0 = frames := by
  simp [dueAt, stoppingAt, extents]

variable {frames : List Frame}

theorem dueAt_cons_zero (h : Ordered frames) (turn : Turn) (turns : List Turn) :
    dueAt frames (turn :: turns) 0 = frames.takeWhile (turn.ends ·.indent) := by
  rw [dueAt, stoppingAt_cons_zero, takeWhile_ends h]
  refine List.filter_congr fun frame _ => ?_
  cases hends : turn.ends frame.indent <;> simp [List.findIdx_cons, hends]

/-- After one turn, what is due later is what is due given the frames that the turn leaves open. -/
theorem dueAt_cons_succ (h : Ordered frames) (turn : Turn) (turns : List Turn) (place : Nat) :
    dueAt frames (turn :: turns) (place + 1)
      = dueAt (turn.opens?.toList ++ frames.dropWhile (turn.ends ·.indent)) turns place := by
  have hstay : (frames.filter fun frame =>
        decide ((turn :: turns).findIdx (·.ends frame.indent) = place + 1))
      = (frames.dropWhile (turn.ends ·.indent)).filter
          fun frame => decide (turns.findIdx (·.ends frame.indent) = place) := by
    rw [dropWhile_ends h, List.filter_filter]
    refine List.filter_congr fun frame _ => ?_
    cases hends : turn.ends frame.indent <;> simp [List.findIdx_cons, hends]
  rw [dueAt, dueAt, stoppingAt_cons_succ, hstay, List.filter_append, List.append_assoc]

theorem ordered_dueAt (h : Ordered frames) (turns : List Turn) (place : Nat) :
    Ordered (dueAt frames turns place) := by
  induction turns generalizing frames place with
  | nil =>
      have hnil : dueAt frames [] place = frames.filter _ := List.nil_append _
      rw [hnil]
      exact List.Pairwise.filter _ h
  | cons turn turns ih =>
      cases place with
      | zero =>
          rw [dueAt_cons_zero h]
          exact List.Pairwise.sublist (List.takeWhile_sublist _) h
      | succ place =>
          rw [dueAt_cons_succ h]
          exact ih (ordered_after h) place

theorem dueAt_empty (turns : List Turn) (place : Nat) :
    dueAt [] turns place = (stoppingAt turns place).map Extent.frame := by
  simp [dueAt]

theorem pageWith_cons (closers : Nat → List Chunk) (filter : Option OpenFilter) (turn : Turn)
    (turns : List Turn) :
    pageWith closers filter (turn :: turns)
      = turn.filterEnd ++ closers 0 ++ turn.own
        ++ pageWith (fun place => closers (place + 1)) turn.filterAfter turns := by
  simp [pageWith, List.mapIdx_cons, filterAtEnd]

end Turn

namespace Converter

theorem run_fst (statements : List Statement) (converter : Converter)
    (h : Ordered converter.scopes.frames) :
    (converter.run statements).1 =
      Turn.pageWith
        (fun place => (Turn.dueAt converter.scopes.frames
          (Turn.list converter.filters.active statements) place).map Frame.closeLine)
        converter.filters.active (Turn.list converter.filters.active statements) := by
  induction statements generalizing converter with
  | nil =>
      simp only [run, Turn.list, Turn.pageWith, Turn.filterAtEnd, List.length_nil, Turn.dueAt_nil]
      simp [finish_fst]
  | cons statement following ih =>
      have hturn : (⟨converter.filters.active, statement, Statement.indentOfFirst following⟩ : Turn)
          = ⟨converter.filters.active, statement, Statement.indentOfFirst following⟩ := rfl
      have hstep := step_eq hturn
      simp only [run, hstep, Turn.list, Turn.pageWith_cons, Turn.dueAt_cons_zero h,
        Turn.dueAt_cons_succ h]
      rw [ih _ (Turn.ordered_after h)]
      rfl

theorem run_scopes (statements : List Statement) (converter : Converter) :
    (converter.run statements).2.scopes =
      { frames := []
        opened := converter.scopes.opened
          + (Turn.extents (Turn.list converter.filters.active statements)).length
        closed := converter.scopes.closed + converter.scopes.frames.length
          + (Turn.extents (Turn.list converter.filters.active statements)).length } := by
  induction statements generalizing converter with
  | nil => simp [run, finish_snd, Turn.list, Turn.extents]
  | cons statement following ih =>
      let turn : Turn :=
        ⟨converter.filters.active, statement, Statement.indentOfFirst following⟩
      have hframes : converter.scopes.frames.length
          = (converter.scopes.frames.takeWhile (turn.ends ·.indent)).length
            + (converter.scopes.frames.dropWhile (turn.ends ·.indent)).length := by
        rw [← List.length_append, List.takeWhile_append_dropWhile]
      have hturn : turn
          = ⟨converter.filters.active, statement, Statement.indentOfFirst following⟩ := rfl
      have hstep := step_eq hturn
      simp only [run, hstep, ih, Turn.list]
      rw [Turn.extents_cons, List.length_append, List.length_map]
      cases ho : turn.opens? with
      | none =>
          simp only [Turn.after, ho, turn] at hframes ⊢
          simp
          omega
      | some frame =>
          simp only [Turn.after, ho, turn] at hframes ⊢
          simp
          omega

theorem run_start_fst (document : Text) :
    (start.run (Statement.ofDocument document)).1 = Turn.page (Turn.ofDocument document) := by
  have hordered : Ordered start.scopes.frames := List.Pairwise.nil
  rw [run_fst _ _ hordered]
  simp [Turn.page, Turn.dueAt_empty, start, Scopes.empty, Filters.empty, Turn.ofDocument,
    Function.comp_def]

theorem run_start_scopes (document : Text) :
    (start.run (Statement.ofDocument document)).2.scopes =
      { frames := []
        opened := (Turn.extents (Turn.ofDocument document)).length
        closed := (Turn.extents (Turn.ofDocument document)).length } := by
  simp [run_scopes, start, Scopes.empty, Filters.empty, Turn.ofDocument]

end Converter

/-! ## The page of a document -/

end Haml
