import Haml.Text.Basic
import Mathlib.Tactic.Common

/-!
# Slices of texts

A text in UTF-8 can be cut by byte offsets, but only between its characters: an offset inside of a character, or
behind the end, gives no slice. The offsets at which a text can be cut are the sizes of what it starts with.
-/

namespace Haml.Text

/-! ## Cuts by bytes -/

/-- What is left of the text behind the characters that `n` bytes hold. -/
def dropBytes : Nat → Text → Text
  | _, [] => []
  | n, c :: cs => if c.utf8Size ≤ n then dropBytes (n - c.utf8Size) cs else c :: cs

/-- Whether a byte offset is that of a character's first byte, or that of the end of the text. -/
def isBoundary (s : Text) (offset : Nat) : Bool := String.Pos.Raw.isValid (String.ofList s) ⟨offset⟩

/-- Two offsets between which something of a size has no slice. -/
structure InvalidSlice where
  size : Nat
  start : Nat
  stop : Nat
  deriving DecidableEq, Repr

/-- The part of a text between two byte offsets. -/
def slice (s : Text) (start stop : Nat) : Except InvalidSlice Text :=
  if start ≤ stop && s.isBoundary start && s.isBoundary stop then
    .ok (takeBytes (stop - start) (dropBytes start s))
  else .error ⟨s.byteSize, start, stop⟩

def sliceFrom (s : Text) (start : Nat) : Except InvalidSlice Text := s.slice start s.byteSize

/-! ## Sizes -/

theorem byteSize_append (s t : Text) : byteSize (s ++ t) = byteSize s + byteSize t := by
  induction s with
  | nil => exact (Nat.zero_add _).symm
  | cons c cs ih => rw [List.cons_append, byteSize, byteSize, ih, Nat.add_assoc]

theorem byteSize_concat (s : Text) (c : Char) : byteSize (s ++ [c]) = byteSize s + c.utf8Size :=
  byteSize_append s [c]

theorem byteSize_le_of_infix {s t : Text} (h : s <:+: t) : byteSize s ≤ byteSize t := by
  obtain ⟨before, after, rfl⟩ := h
  rw [byteSize_append, byteSize_append]
  omega

theorem byteSize_cons_pos (c : Char) (s : Text) : 0 < byteSize (c :: s) :=
  Nat.add_pos_left c.utf8Size_pos _

theorem utf8ByteSize_ofList (s : Text) : (String.ofList s).utf8ByteSize = byteSize s := by
  induction s with
  | nil => rfl
  | cons c cs ih =>
      rw [String.ofList_cons, String.utf8ByteSize_append, String.utf8ByteSize_singleton, ih, byteSize]

theorem takeBytes_append (s t : Text) : takeBytes (byteSize s) (s ++ t) = s := by
  induction s with
  | nil =>
      cases t with
      | nil => rfl
      | cons c cs => exact if_neg (Nat.not_le_of_lt c.utf8Size_pos)
  | cons c cs ih =>
      rw [List.cons_append, takeBytes, byteSize, if_pos (Nat.le_add_right _ _), Nat.add_sub_cancel_left, ih]

theorem dropBytes_append (s t : Text) : dropBytes (byteSize s) (s ++ t) = t := by
  induction s with
  | nil =>
      cases t with
      | nil => rfl
      | cons c cs => exact if_neg (Nat.not_le_of_lt c.utf8Size_pos)
  | cons c cs ih =>
      rw [List.cons_append, dropBytes, byteSize, if_pos (Nat.le_add_right _ _), Nat.add_sub_cancel_left, ih]

/-! ## Boundaries -/

/-- The boundaries are the offsets between two parts of the text. -/
theorem isBoundary_iff {s : Text} {offset : Nat} :
    s.isBoundary offset = true ↔ ∃ before after, s = before ++ after ∧ offset = byteSize before := by
  rw [isBoundary, String.Pos.Raw.isValid_eq_true_iff, String.Pos.Raw.isValid_ofList]
  constructor
  · rintro ⟨i, hi⟩
    exact ⟨s.take i, s.drop i, (List.take_append_drop i s).symm, hi.trans (utf8ByteSize_ofList _)⟩
  · rintro ⟨before, after, rfl, rfl⟩
    exact ⟨before.length, by rw [List.take_left, utf8ByteSize_ofList]⟩

theorem isBoundary_append (s t : Text) : (s ++ t).isBoundary (byteSize s) = true :=
  isBoundary_iff.mpr ⟨s, t, rfl, rfl⟩

theorem le_byteSize_of_isBoundary {s : Text} {offset : Nat} (h : s.isBoundary offset = true) :
    offset ≤ s.byteSize := by
  obtain ⟨before, after, rfl, rfl⟩ := isBoundary_iff.mp h
  rw [byteSize_append]
  exact Nat.le_add_right _ _

/-! ## Slices -/

theorem slice_append (before s after : Text) :
    slice (before ++ (s ++ after)) (byteSize before) (byteSize before + byteSize s) = .ok s := by
  have hstart := isBoundary_append before (s ++ after)
  have hstop := isBoundary_append (before ++ s) after
  rw [List.append_assoc, byteSize_append] at hstop
  rw [slice, hstart, hstop, dropBytes_append, Nat.add_sub_cancel_left, takeBytes_append]
  simp

theorem slice_zero_append (s after : Text) : slice (s ++ after) 0 (byteSize s) = .ok s := by
  simpa [byteSize] using slice_append [] s after

theorem sliceFrom_append (before s : Text) : sliceFrom (before ++ s) (byteSize before) = .ok s := by
  have h := slice_append before s []
  rwa [List.append_nil, ← byteSize_append] at h

/-- A slice is a part of the text, and its offsets are the sizes of what comes before and up to its end. -/
theorem slice_eq_ok_iff {s part : Text} {start stop : Nat} :
    slice s start stop = .ok part ↔ ∃ before after, s = before ++ (part ++ after) ∧ start = byteSize before
      ∧ stop = byteSize before + byteSize part := by
  constructor
  · intro h
    unfold slice at h
    split at h
    case isFalse => cases h
    rename_i hcond
    simp only [Bool.and_eq_true, decide_eq_true_eq] at hcond
    obtain ⟨⟨hle, hstart⟩, hstop⟩ := hcond
    obtain ⟨before, rest, rfl, rfl⟩ := isBoundary_iff.mp hstart
    obtain ⟨upto, after, hs, rfl⟩ := isBoundary_iff.mp hstop
    obtain ⟨t, rfl⟩ : before <+: upto := by
      rcases List.prefix_or_prefix_of_prefix (List.prefix_append before rest) ⟨after, hs.symm⟩ with hpre | hpre
      · exact hpre
      · obtain ⟨more, rfl⟩ := hpre
        cases more with
        | nil => simp
        | cons c cs =>
            have hpos := byteSize_cons_pos c cs
            rw [byteSize_append] at hle
            omega
    obtain rfl : rest = t ++ after := by
      rw [List.append_assoc] at hs
      exact List.append_cancel_left hs
    rw [dropBytes_append, byteSize_append, Nat.add_sub_cancel_left, takeBytes_append] at h
    cases h
    exact ⟨before, after, rfl, rfl, byteSize_append _ _⟩
  · rintro ⟨before, after, rfl, rfl, rfl⟩
    exact slice_append before part after

theorem sliceFrom_eq_ok_iff {s part : Text} {start : Nat} :
    sliceFrom s start = .ok part ↔ ∃ before, s = before ++ part ∧ start = byteSize before := by
  constructor
  · intro h
    obtain ⟨before, after, hs, hstart, hstop⟩ := slice_eq_ok_iff.mp h
    obtain rfl : after = [] := by
      cases after with
      | nil => rfl
      | cons c cs =>
          have hpos := byteSize_cons_pos c cs
          rw [hs, byteSize_append, byteSize_append] at hstop
          omega
    exact ⟨before, by rw [hs, List.append_nil], hstart⟩
  · rintro ⟨before, rfl, rfl⟩
    exact sliceFrom_append before part

/-- Between two parts of a text it is cut into these parts. -/
theorem slices_of_append {s t whole : Text} (h : s ++ t = whole) :
    whole.slice 0 (byteSize s) = .ok s ∧ whole.sliceFrom (byteSize s) = .ok t := by
  subst h
  exact ⟨slice_zero_append s t, sliceFrom_append s t⟩

/-- Behind the first byte of a wide character there is no slice. -/
example : slice "é".toList 0 1 = .error ⟨2, 0, 1⟩ := by decide

end Haml.Text
