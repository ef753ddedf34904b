import Haml.Proofs.Element
import Haml.Proofs.Extent

/-!
# Nesting

A page opens and closes elements and blocks of code. Read in the order of the page, the openings and
closings of a conversion are nested: everything is closed, and what is opened last is closed first.
What a closing marker closes is read off its text.
-/

namespace Haml

/-- Something that is opened in a page and closed again. -/
inductive Construct where
  /-- An element that has an end tag. -/
  | element (name : Text)
  /-- A block of code. -/
  | block
  deriving DecidableEq, Repr

/-- A place in a page where something is opened or closed. -/
inductive Event where
  | opening (construct : Construct)
  | closing (construct : Construct)
  deriving DecidableEq, Repr

/-- Whatever is opened is closed, and all that is opened in between is closed before. -/
inductive Nested : List Event → Prop where
  | nil : Nested []
  | pair {construct : Construct} {inner rest : List Event} : Nested inner → Nested rest →
      Nested (.opening construct :: (inner ++ .closing construct :: rest))

/-- The events close the constructs that are open, the innermost first, and are nested in between. -/
inductive Closes : List Construct → List Event → Prop where
  | nil {events : List Event} : Nested events → Closes [] events
  | cons {construct : Construct} {outer : List Construct} {inner rest : List Event} :
      Nested inner → Closes outer rest →
      Closes (construct :: outer) (inner ++ .closing construct :: rest)

namespace Closes

variable {construct : Construct} {stack : List Construct} {events : List Event}

theorem opening (h : Closes (construct :: stack) events) :
    Closes stack (.opening construct :: events) := by
  cases h with
  | @cons _ _ inner rest hinner hrest =>
      cases hrest with
      | nil hnested => exact .nil (.pair hinner hnested)
      | @cons _ _ inner' rest' hinner' hrest' =>
          have hpair : Nested (.opening construct :: (inner ++ .closing construct :: inner')) :=
            .pair hinner hinner'
          simpa using Closes.cons hpair hrest'

theorem openings (constructs : List Construct)
    (h : Closes (constructs.reverse ++ stack) events) :
    Closes stack (constructs.map .opening ++ events) := by
  induction constructs generalizing stack events with
  | nil => exact h
  | cons first rest ih =>
      refine opening (ih ?_)
      simpa using h

theorem closings (constructs : List Construct) (h : Closes stack events) :
    Closes (constructs ++ stack) (constructs.map .closing ++ events) := by
  induction constructs with
  | nil => exact h
  | cons first rest ih =>
      have hfirst : Closes (first :: (rest ++ stack))
          ([] ++ .closing first :: (rest.map .closing ++ events)) := .cons .nil ih
      exact hfirst

end Closes

/-! ## Closing markers -/

/-- The element whose end tag a text is. -/
def elementEndedBy (s : Text) : List Construct :=
  ((Text.after? "</".toList s).map fun rest => .element rest.dropLast).toList

/-- What a closing marker closes, in order: a block, an element, or a block and then an element. -/
def closedBy (closer : Text) : List Construct :=
  match Text.after? Erb.endMarker closer with
  | some rest => .block :: elementEndedBy rest
  | none => elementEndedBy closer

theorem closedBy_endMarker : closedBy Erb.endMarker = [.block] := by decide

theorem elementEndedBy_endTag (name : Text) :
    elementEndedBy (Html.endTag name) = [.element name] := by
  simp [elementEndedBy, Html.endTag, Text.after?]

theorem closedBy_endTag (name : Text) : closedBy (Html.endTag name) = [.element name] := by
  have hno : Text.after? Erb.endMarker (Html.endTag name) = none := by
    simp [Erb.endMarker, Erb.statement, Html.endTag, Text.after?]
  rw [closedBy, hno]
  exact elementEndedBy_endTag name

theorem closedBy_endMarker_append (name : Text) :
    closedBy (Erb.endMarker ++ Html.endTag name) = [.block, .element name] := by
  have hafter : Text.after? Erb.endMarker (Erb.endMarker ++ Html.endTag name)
      = some (Html.endTag name) := by
    simp [Erb.endMarker, Erb.statement, Text.after?]
  rw [closedBy, hafter]
  exact congrArg (Construct.block :: ·) (elementEndedBy_endTag name)

namespace Turn

/-! ## Elements -/

def tag? (turn : Turn) : Option Tag := if turn.isRendered then turn.statement.tag? else none

def body (turn : Turn) : Text :=
  match turn.rendering with
  | .line body _ => body
  | _ => []

/-- The element that a statement writes, if the element has an end tag. -/
def element? (turn : Turn) : Option Text :=
  (turn.tag?.map Tag.name).filter (!Html.isVoid ·)

/-! ## Events -/

/-- What the statement owes the lines nested under it. -/
def owed (turn : Turn) : List Construct := turn.opens?.toList.flatMap (closedBy ·.closer)

/-- What the statement opens: its element, and in it the block whose end it owes. -/
def opened (turn : Turn) : List Construct :=
  turn.element?.toList.map .element ++ turn.owed.filter (· = .block)

/-- What the statement closes itself: the element whose end tag its line ends with. -/
def closedAtOnce (turn : Turn) : List Construct :=
  (turn.element?.toList.filter fun name => Html.endTag name <:+ turn.body).map .element

/-- The events of turns, the frames that are closed at each place being given. -/
def eventsWith (closers : Nat → List Frame) (turns : List Turn) : List Event :=
  (turns.mapIdx fun place turn =>
      ((closers place).flatMap (closedBy ·.closer)).map .closing
        ++ turn.opened.map .opening ++ turn.closedAtOnce.map .closing).flatten
    ++ ((closers turns.length).flatMap (closedBy ·.closer)).map .closing

/-- The events of turns, each scope being closed where it stops. -/
def events (turns : List Turn) : List Event :=
  eventsWith (fun place => (stoppingAt turns place).map Extent.frame) turns

theorem eventsWith_cons (closers : Nat → List Frame) (turn : Turn) (turns : List Turn) :
    eventsWith closers (turn :: turns)
      = ((closers 0).flatMap (closedBy ·.closer)).map .closing
        ++ (turn.opened.map .opening ++ (turn.closedAtOnce.map .closing
          ++ eventsWith (fun place => closers (place + 1)) turns)) := by
  simp [eventsWith, List.mapIdx_cons]

end Turn

end Haml
