import Haml.Code.Comment
import Haml.Proofs.Slice
import Haml.Proofs.Text

/-!
# Comments in one pass

Whether a string literal is open before a hash is read off all of the code before it, for each hash anew. One
reading from left to right that keeps its standing finds the same comment. Main statement: both give the same
offset, and the expression before the comment has no comment of its own.
-/

namespace Haml.Code

/-- Whether a text may start a comment: with a blank and a hash that opens no interpolation. -/
def opensComment (s : Text) : Bool := (Text.after? " #".toList s).any fun rest => rest.head? != some '{'

/-- The byte offset of the first comment in what is left of code, read on from a standing and an offset. -/
def scanComment? : LiteralScan → (offset : Nat) → Text → Option Nat
  | _, _, [] => none
  | scan, offset, c :: cs =>
    if opensComment (c :: cs) && scan.quote.isNone then some offset
    else scanComment? (scan.next c) (offset + c.utf8Size) cs

variable {scan : LiteralScan} {offset place : Nat} {s : Text}

theorem insideLiteral_eq (before : Text) :
    insideLiteral before = !(before.foldl LiteralScan.next .start).quote.isNone := by
  rw [insideLiteral]
  cases (before.foldl LiteralScan.next .start).quote <;> rfl

/-- The comment behind what is read before starts at the first opening whose literals are closed by then. -/
theorem find?_hashCuts_eq (before s : Text) :
    ((hashCuts s).find? fun cut => isCommentCut (before ++ cut.1, cut.2)).map
        (fun cut => (before ++ cut.1).byteSize)
      = scanComment? (before.foldl LiteralScan.next .start) before.byteSize s := by
  induction s generalizing before with
  | nil => rfl
  | cons c cs ih =>
      have hlater : (((hashCuts cs).map (Prod.map (c :: ·) id)).find?
            fun cut => isCommentCut (before ++ cut.1, cut.2)).map (fun cut => (before ++ cut.1).byteSize)
          = scanComment? ((before.foldl LiteralScan.next .start).next c) (before.byteSize + c.utf8Size) cs := by
        have hrest := ih (before ++ [c])
        rw [List.foldl_append, Text.byteSize_concat] at hrest
        rw [List.find?_map, Option.map_map]
        simpa [Function.comp_def] using hrest
      rw [scanComment?, hashCuts, opensComment]
      cases Text.after? " #".toList (c :: cs) with
      | none => simpa using hlater
      | some rest =>
          have hhere : isCommentCut (before, rest)
              = (rest.head? != some '{' && (before.foldl LiteralScan.next .start).quote.isNone) := by
            rw [isCommentCut, insideLiteral_eq, Bool.not_not]
          rw [Option.any_some, ← hhere]
          cases hopen : isCommentCut (before, rest) with
          | true => simp only [List.find?_cons, List.append_nil, hopen, Option.map_some, if_true]
          | false =>
              simp only [List.find?_cons, List.append_nil, hopen]
              exact hlater

/-- Both ways to look for a comment find it at the same offset. -/
theorem commentOffset?_eq_scanComment? (code : Text) : commentOffset? code = scanComment? .start 0 code :=
  find?_hashCuts_eq [] code

/-! ## Code before a comment -/

theorem exists_of_opensComment (h : opensComment s = true) : ∃ rest, s = ' ' :: '#' :: rest := by
  cases hafter : Text.after? " #".toList s with
  | none =>
      rw [opensComment, hafter] at h
      cases h
  | some rest => exact ⟨rest, (Text.append_of_after? hafter).symm⟩

theorem exists_of_scanComment? (h : scanComment? scan offset s = some place) :
    ∃ before rest, s = before ++ ' ' :: '#' :: rest ∧ place = offset + before.byteSize := by
  induction s generalizing scan offset with
  | nil => cases h
  | cons c cs ih =>
      rw [scanComment?] at h
      split at h
      · rename_i hopens
        obtain ⟨rest, hrest⟩ := exists_of_opensComment (Bool.and_eq_true_iff.mp hopens).1
        exact ⟨[], rest, hrest, (Option.some.inj h).symm⟩
      · obtain ⟨before, rest, rfl, rfl⟩ := ih h
        exact ⟨c :: before, rest, rfl, by rw [Text.byteSize, Nat.add_assoc]⟩

theorem opensComment_append (c d : Char) (s : Text) {t : Text} (ht : t.head? ≠ some '{') :
    opensComment (c :: d :: (s ++ t)) = opensComment (c :: d :: s) := by
  by_cases hc : ' ' = c
  · by_cases hd : '#' = d
    · subst hc hd
      cases s with
      | nil => exact bne_iff_ne.mpr ht
      | cons e es => rfl
    · simp [opensComment, Text.after?, hd]
  · simp [opensComment, Text.after?, hc]

/-- A comment is one also in front of more text, which cannot make an interpolation of it. -/
theorem scanComment?_append (h : scanComment? scan offset s = some place) {t : Text} (ht : t.head? ≠ some '{') :
    scanComment? scan offset (s ++ t) = some place := by
  induction s generalizing scan offset with
  | nil => cases h
  | cons c cs ih =>
      cases cs with
      | nil => simp [scanComment?, opensComment, Text.after?] at h
      | cons d ds =>
          rw [scanComment?] at h
          rw [List.cons_append, List.cons_append, scanComment?, opensComment_append c d ds ht]
          split at h
          · rename_i hopens
            rw [if_pos hopens, h]
          · rename_i hopens
            rw [if_neg hopens]
            exact ih h

/--
The comment of code is where one reading from left to right meets the first blank and hash that stand outside of
all string literals and open no interpolation. The code up to there is a slice, and has no comment once the
blanks at its end are gone.
-/
theorem commentOffset?_in_one_pass (code : Text) :
    commentOffset? code = scanComment? .start 0 code
      ∧ ∀ place ∈ commentOffset? code, ∃ before, code.slice 0 place = .ok before
        ∧ commentOffset? (Text.trimEnd before) = none := by
  refine ⟨commentOffset?_eq_scanComment? code, fun place hplace => ?_⟩
  rw [commentOffset?_eq_scanComment?, Option.mem_def] at hplace
  obtain ⟨before, rest, rfl, rfl⟩ := exists_of_scanComment? hplace
  rw [Nat.zero_add] at hplace ⊢
  refine ⟨before, Text.slice_zero_append before _, ?_⟩
  obtain ⟨blanks, hbefore, hblanks⟩ := Text.exists_trimEnd_append before
  rw [commentOffset?_eq_scanComment?]
  refine Option.eq_none_iff_forall_ne_some.mpr fun earlier hearlier => ?_
  -- A comment within the trimmed code would come before the one that was found.
  have hbrace : (blanks ++ ' ' :: '#' :: rest).head? ≠ some '{' := by
    cases blanks with
    | nil => simp
    | cons b bs =>
        intro hb
        have hblank := hblanks b List.mem_cons_self
        rw [Option.some.inj hb] at hblank
        exact absurd hblank (by decide)
  have hfound := scanComment?_append hearlier hbrace
  rw [← List.append_assoc, ← hbefore, hplace] at hfound
  obtain ⟨first, after, htrimmed, hsize⟩ := exists_of_scanComment? hearlier
  have hlonger := congrArg Text.byteSize hbefore
  have hpos := Text.byteSize_cons_pos ' ' ('#' :: after)
  rw [htrimmed, Text.byteSize_append, Text.byteSize_append] at hlonger
  have := Option.some.inj hfound
  omega

/--
A hash in a string literal, behind an escaped quote, and one that opens an interpolation are passed over, behind
a wide character.
-/
theorem commentOffset?_in_one_pass_label :
    let code := "t(\"é \\\" #\", #\x7bx\x7d) # – # b".toList
    commentOffset? code = some 18
      ∧ Text.slice code 0 18 = .ok "t(\"é \\\" #\", #\x7bx\x7d)".toList
      ∧ ∃ before, Text.slice code 0 18 = .ok before ∧ commentOffset? (Text.trimEnd before) = none := by
  intro code
  have hoffset : commentOffset? code = some 18 := by decide +kernel
  have hslice := Text.slice_zero_append "t(\"é \\\" #\", #\x7bx\x7d)".toList " # – # b".toList
  exact ⟨hoffset, hslice, (commentOffset?_in_one_pass code).2 18 hoffset⟩

end Haml.Code
