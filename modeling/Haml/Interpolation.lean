import Haml.Erb

/-!
# Interpolation in running text

A marker `#{code}` in text becomes an ERB output tag. The code of a marker runs to the next
closing brace, whatever it is, and is not empty. A backslash before a marker keeps it as text and
is dropped. Text is read once from left to right, and what a marker takes is not read again.
-/

namespace Haml.Interpolation

/-- A piece of running text. -/
inductive Segment where
  | char (c : Char)
  /-- A marker after a backslash. -/
  | escaped (code : Text)
  | marker (code : Text)
  deriving DecidableEq, Repr

/-- The code of the marker that a text starts with, and what follows the marker. -/
def marker? : Text → Option (Text × Text)
  | '#' :: '{' :: cs =>
    match cs.dropWhile (· ≠ '}') with
    | [] => none
    | _ :: rest =>
      let code := cs.takeWhile (· ≠ '}')
      if code = [] then none else some (code, rest)
  | _ => none

/-- The marker, after a backslash or not, that a text starts with, and what follows it. -/
def opening? : Text → Option (Segment × Text)
  | '\\' :: cs => (marker? cs).map (Prod.map .escaped id)
  | cs => (marker? cs).map (Prod.map .marker id)

/-- What follows a marker is shorter than the text. -/
theorem length_of_marker? {s code rest : Text} (h : marker? s = some (code, rest)) :
    rest.length < s.length := by
  unfold marker? at h
  split at h
  · next cs =>
    have hle := (cs.dropWhile_suffix (· ≠ '}')).length_le
    split at h
    · simp at h
    · next hd =>
      obtain ⟨_, h⟩ := Option.ite_none_left_eq_some.1 h
      obtain ⟨_, rfl⟩ := Prod.mk.inj (Option.some.inj h)
      simp only [hd, List.length_cons] at hle ⊢
      omega
  · simp at h

/-- What follows a marker, after a backslash or not, is shorter than the text. -/
theorem length_of_opening? {s rest : Text} {segment : Segment}
    (h : opening? s = some (segment, rest)) : rest.length < s.length := by
  unfold opening? at h
  split at h <;>
  · obtain ⟨⟨code, rest'⟩, hm, he⟩ := Option.map_eq_some_iff.1 h
    obtain ⟨_, rfl⟩ := Prod.mk.inj he
    have := length_of_marker? hm
    simp only [List.length_cons, id] at this ⊢
    omega

/-- The pieces of a text. -/
def segments : Text → List Segment
  | [] => []
  | c :: cs =>
    match _h : opening? (c :: cs) with
    | some (segment, rest) => segment :: segments rest
    | none => .char c :: segments cs
termination_by s => s.length
decreasing_by
  · exact length_of_opening? ‹_›
  · exact Nat.lt_succ_self cs.length

/-- How a piece is written in the target notation. -/
def Segment.write : Segment → Text
  | .char c => [c]
  | .escaped code => '#' :: '{' :: (code ++ ['}'])
  | .marker code => Erb.output code

/-- The text with its markers written in the target notation. -/
def expand (s : Text) : Text := (segments s).flatMap Segment.write

end Haml.Interpolation
