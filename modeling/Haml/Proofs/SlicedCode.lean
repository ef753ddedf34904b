import Haml.Proofs.Reading
import Haml.Proofs.Slice
import Haml.Proofs.Source

/-!
# Code read by offsets

A scanner may keep byte offsets in place of the texts before them, and take a slice between two offsets where a
text is wanted. Here the scanners of embedded code are told so: the search for a closing delimiter, the cut at
top-level separators, and the search for a comment. Every slice that they take there is, and they give what the
scanners give that hold texts.
-/

namespace Haml

/-- What is read by slices, or else the first slice that there is not. -/
abbrev Sliced := Except Text.InvalidSlice

namespace Sliced

@[simp]
theorem ok_bind {α β : Type} (a : α) (f : α → Sliced β) : ((Except.ok a : Sliced α) >>= f) = f a := rfl

@[simp]
theorem pure_eq_ok {α : Type} (a : α) : (pure a : Sliced α) = .ok a := rfl

/-! ## Offsets -/

/-- The offsets of the characters at which what is left of a text passes a test. -/
def offsets (test : Text → Bool) : (offset : Nat) → Text → List Nat
  | _, [] => []
  | offset, c :: cs =>
    if test (c :: cs) then offset :: offsets test (offset + c.utf8Size) cs
    else offsets test (offset + c.utf8Size) cs

/-! ## Closing delimiters -/

/-- The offset of the closing delimiter, read on from a standing, a depth and an offset. -/
def closingFrom? (opening closing : Char) : Code.Quoting → (depth offset : Nat) → Text → Option Nat
  | _, _, _, [] => none
  | .quoted quote escaped, depth, offset, c :: cs =>
    closingFrom? opening closing ((Code.Quoting.quoted quote escaped).next c) depth (offset + c.utf8Size) cs
  | .code, depth, offset, c :: cs =>
    if Code.isQuote c then closingFrom? opening closing (.quoted c false) depth (offset + c.utf8Size) cs
    else match Code.countDelimiters opening closing depth c with
      | some depth => closingFrom? opening closing .code depth (offset + c.utf8Size) cs
      | none => some offset

def closingOffset? (opening closing : Char) (s : Text) : Option Nat := closingFrom? opening closing .code 0 0 s

def braced? (s : Text) : Sliced (Option Code.Braced) :=
  let s := Text.trimStart s
  if s.head? = some '{' then
    match closingOffset? '{' '}' s with
    | some close => do return some ⟨← s.slice 1 close, ← s.sliceFrom (close + 1)⟩
    | none => return none
  else return none

theorem closingFrom?_eq (opening closing : Char) (quoting : Code.Quoting) (depth offset : Nat) (s : Text) :
    closingFrom? opening closing quoting depth offset s
      = (Code.splitAtClose opening closing quoting depth s).map fun parts => offset + parts.1.byteSize := by
  have hcons : ∀ (offset : Nat) (c : Char) (found : Option (Text × Text)),
      (found.map fun parts => offset + c.utf8Size + parts.1.byteSize)
        = (found.map (Prod.map (c :: ·) id)).map fun parts : Text × Text => offset + parts.1.byteSize := by
    rintro offset c (_ | parts)
    · rfl
    · exact congrArg some (Nat.add_assoc _ _ _)
  induction s generalizing quoting depth offset with
  | nil => cases quoting <;> rfl
  | cons c cs ih =>
      cases quoting with
      | quoted quote escaped => rw [closingFrom?, Code.splitAtClose, ih, hcons]
      | code =>
          cases hquote : Code.isQuote c with
          | true => rw [closingFrom?, if_pos hquote, Code.splitAtClose, if_pos hquote, ih, hcons]
          | false =>
              rw [closingFrom?, hquote, Code.splitAtClose_cons hquote]
              cases Code.countDelimiters opening closing depth c with
              | none => rfl
              | some depth => exact (ih _ _ _).trans (hcons offset c _)

theorem closingOffset?_eq (opening closing : Char) (s : Text) :
    closingOffset? opening closing s = Code.closingOffset? opening closing s := by
  rw [closingOffset?, closingFrom?_eq, Code.closingOffset?, Code.splitAtFirstClose]
  simp only [Nat.zero_add]

/-- The closing delimiter stands between two boundaries. -/
theorem isBoundary_of_closingOffset? {opening closing : Char} {s : Text} {offset : Nat}
    (h : Code.closingOffset? opening closing s = some offset) :
    s.isBoundary offset = true ∧ s.isBoundary (offset + closing.utf8Size) = true := by
  obtain ⟨⟨before, after⟩, hparts, rfl⟩ := Option.map_eq_some_iff.mp h
  obtain rfl : before ++ closing :: after = s := Code.append_of_splitAtClose hparts
  exact ⟨Text.isBoundary_append _ _, Text.isBoundary_iff.mpr ⟨before ++ [closing], after, by simp,
    (Text.byteSize_concat before closing).symm⟩⟩

@[simp]
theorem braced?_eq (s : Text) : braced? s = .ok (Code.braced? s) := by
  rw [braced?, Code.braced?, closingOffset?_eq]
  cases hs : Text.trimStart s with
  | nil => rfl
  | cons c cs =>
      by_cases hc : c = '{'
      · subst hc
        have hopen : Code.closingOffset? '{' '}' ('{' :: cs)
            = (Code.splitAtClose '{' '}' .code 1 cs).map fun parts => 1 + parts.1.byteSize := by
          rw [← closingOffset?_eq]
          exact closingFrom?_eq '{' '}' .code 1 1 cs
        rw [if_pos List.head?_cons, hopen]
        cases hparts : Code.splitAtClose '{' '}' .code 1 cs with
        | none => simp [hparts]
        | some parts =>
            obtain rfl := Code.append_of_splitAtClose hparts
            have hcontent : Text.slice ('{' :: (parts.1 ++ '}' :: parts.2)) 1 (1 + parts.1.byteSize)
                = .ok parts.1 :=
              Text.slice_eq_ok_iff.mpr ⟨['{'], '}' :: parts.2, rfl, rfl, rfl⟩
            have hclosed : 1 + parts.1.byteSize + 1 = Text.byteSize ('{' :: parts.1 ++ ['}']) :=
              (Text.byteSize_concat ('{' :: parts.1) '}').symm
            have hremaining : Text.sliceFrom ('{' :: (parts.1 ++ '}' :: parts.2)) (1 + parts.1.byteSize + 1)
                = .ok parts.2 :=
              Text.sliceFrom_eq_ok_iff.mpr ⟨_, by simp, hclosed⟩
            simp [hparts, hcontent, hremaining]
      · rw [if_neg (by simpa using hc)]
        split
        · rename_i heq
          cases heq
          exact absurd rfl hc
        · rfl

/-! ## Top-level separators -/

/--
The pieces of a text, read on from a standing and a depth. The piece that is being read starts at `start`, and
what is left at `offset`.
-/
def splitFrom (s : Text) (separator : Char) :
    Code.Quoting → (depth start offset : Nat) → Text → Sliced (List Text)
  | _, _, start, _, [] => do if start < s.byteSize then return [← s.sliceFrom start] else return []
  | .quoted quote escaped, depth, start, offset, c :: cs =>
    splitFrom s separator ((Code.Quoting.quoted quote escaped).next c) depth start (offset + c.utf8Size) cs
  | .code, depth, start, offset, c :: cs =>
    if Code.isQuote c then splitFrom s separator (.quoted c false) depth start (offset + c.utf8Size) cs
    else match Code.countBrackets separator depth c with
      | some depth => splitFrom s separator .code depth start (offset + c.utf8Size) cs
      | none => do
        let piece ← s.slice start offset
        return piece :: (← splitFrom s separator .code 0 (offset + c.utf8Size) (offset + c.utf8Size) cs)

def split (separator : Char) (s : Text) : Sliced (List Text) := splitFrom s separator .code 0 0 0 s

section

variable {s : Text} {separator : Char}

/-- At the end of the text the piece that is being read is the last one, unless nothing is left for it. -/
theorem splitFrom_nil (before part : Text) (hs : s = before ++ part) (quoting : Code.Quoting)
    (depth offset : Nat) :
    splitFrom s separator quoting depth before.byteSize offset [] = .ok (Code.dropEmptyLast [part]) := by
  cases part with
  | nil =>
      rw [List.append_nil] at hs
      cases quoting <;> simp [splitFrom, Code.dropEmptyLast, hs]
  | cons c cs =>
      have hpos := Text.byteSize_cons_pos c cs
      have hslice : s.sliceFrom before.byteSize = .ok (c :: cs) :=
        Text.sliceFrom_eq_ok_iff.mpr ⟨before, hs, rfl⟩
      have hlt : before.byteSize < s.byteSize := by
        rw [hs, Text.byteSize_append]
        omega
      cases quoting <;> simp [splitFrom, Code.dropEmptyLast, hlt, hslice]

theorem dropEmptyLast_cons_pieces (piece : Text) (quoting : Code.Quoting) (depth : Nat) :
    Code.dropEmptyLast (piece :: Code.pieces separator quoting depth s)
      = piece :: Code.dropEmptyLast (Code.pieces separator quoting depth s) := by
  obtain ⟨head, tail, hpieces, -⟩ := Code.pieces_spec separator quoting depth s
  rw [hpieces, Code.dropEmptyLast_cons]

/-- What is left when a piece is read is the rest of that piece and the pieces behind it. -/
theorem splitFrom_eq {rest : Text} (before part : Text) (hs : s = before ++ (part ++ rest))
    (quoting : Code.Quoting) (depth : Nat) :
    splitFrom s separator quoting depth before.byteSize (before.byteSize + part.byteSize) rest
      = .ok (Code.dropEmptyLast (part.foldr Text.consHead (Code.pieces separator quoting depth rest))) := by
  induction rest generalizing before part quoting depth with
  | nil =>
      have hpieces : Code.pieces separator quoting depth [] = [[]] := by cases quoting <;> rfl
      rw [hpieces, Text.foldr_consHead, List.append_nil]
      rw [List.append_nil] at hs
      exact splitFrom_nil before part hs quoting depth _
  | cons c cs ih =>
      -- A character that does not cut goes to the piece.
      have hstay : ∀ quoting depth,
          splitFrom s separator quoting depth before.byteSize (before.byteSize + part.byteSize + c.utf8Size) cs
            = .ok (Code.dropEmptyLast
              (part.foldr Text.consHead (Text.consHead c (Code.pieces separator quoting depth cs)))) := by
        intro quoting depth
        have hnext := ih before (part ++ [c]) (by simp [hs]) quoting depth
        rwa [Text.byteSize_concat, List.foldr_append, ← Nat.add_assoc] at hnext
      cases quoting with
      | quoted quote escaped => exact hstay _ _
      | code =>
          cases hquote : Code.isQuote c with
          | true =>
              rw [splitFrom, if_pos hquote, Code.pieces, if_pos hquote]
              exact hstay _ _
          | false =>
              rw [splitFrom, hquote, Code.pieces_cons hquote]
              cases hcount : Code.countBrackets separator depth c with
              | some depth => exact hstay _ _
              | none =>
                  have hslice : s.slice before.byteSize (before.byteSize + part.byteSize) = .ok part :=
                    Text.slice_eq_ok_iff.mpr ⟨before, c :: cs, hs, rfl, rfl⟩
                  have hnext := ih (before ++ (part ++ [c])) [] (by simp [hs]) .code 0
                  rw [Text.byteSize_append, Text.byteSize_concat, ← Nat.add_assoc] at hnext
                  simp only [hslice, ok_bind, Text.foldr_consHead, List.append_nil, dropEmptyLast_cons_pieces]
                  exact congrArg (· >>= fun pieces => pure (part :: pieces)) hnext

end

@[simp]
theorem split_eq (separator : Char) (s : Text) : split separator s = .ok (Code.split separator s) :=
  splitFrom_eq [] [] rfl .code 0

/-! ## Comments -/

/-- Whether the blank and the hash at an offset start a comment. -/
def isCommentAt (code : Text) (offset : Nat) : Sliced Bool := do
  if (← code.sliceFrom (offset + 2)).head? = some '{' then return false
  else return !Code.insideLiteral (← code.slice 0 (min offset code.byteSize))

/-- The offsets of the blanks in front of a hash. -/
def hashOffsets (code : Text) : List Nat := offsets (fun s => (Text.after? " #".toList s).isSome) 0 code

def commentOffset? (code : Text) : Sliced (Option Nat) := (hashOffsets code).findM? (isCommentAt code)

theorem hashOffsets_eq (code : Text) :
    hashOffsets code = (Code.hashCuts code).map fun cut => cut.1.byteSize := by
  have hfrom : ∀ (offset : Nat) (s : Text),
      offsets (fun s => (Text.after? " #".toList s).isSome) offset s
        = (Code.hashCuts s).map fun cut => offset + cut.1.byteSize := by
    intro offset s
    induction s generalizing offset with
    | nil => rfl
    | cons c cs ih =>
        rw [offsets, ih, Code.hashCuts]
        cases Text.after? " #".toList (c :: cs) <;> simp [Function.comp_def, Text.byteSize, Nat.add_assoc]
  rw [hashOffsets, hfrom]
  simp only [Nat.zero_add]

/-- The code before a comment and the comment's text are slices, the blank and the hash between them aside. -/
theorem slices_of_comment {code before remark : Text} (h : before ++ ' ' :: '#' :: remark = code) :
    code.slice 0 before.byteSize = .ok before ∧ code.sliceFrom (before.byteSize + 2) = .ok remark :=
  ⟨(Text.slices_of_append h).1, Text.sliceFrom_eq_ok_iff.mpr ⟨before ++ [' ', '#'], by simp [h],
    (Text.byteSize_append before [' ', '#']).symm⟩⟩

theorem isCommentAt_eq {cut : Text × Text} {code : Text} (h : cut ∈ Code.hashCuts code) :
    isCommentAt code cut.1.byteSize = .ok (Code.isCommentCut cut) := by
  have hcode := Code.append_of_mem_hashCuts h
  have hle : cut.1.byteSize ≤ code.byteSize :=
    Text.byteSize_le_of_infix ⟨[], _, hcode⟩
  obtain ⟨hbefore, hremark⟩ := slices_of_comment hcode
  rw [isCommentAt, Nat.min_eq_left hle, hremark, Code.isCommentCut, hbefore]
  by_cases hbrace : cut.2.head? = some '{' <;> simp [hbrace]

theorem findM?_map {α β : Type} {f : α → β} {test : β → Sliced Bool} {p : α → Bool} {l : List α}
    (h : ∀ a ∈ l, test (f a) = .ok (p a)) : (l.map f).findM? test = .ok ((l.find? p).map f) := by
  induction l with
  | nil => rfl
  | cons a l ih =>
      obtain ⟨ha, hl⟩ := List.forall_mem_cons.mp h
      rw [List.map_cons, List.findM?, ha, List.find?_cons]
      cases p a with
      | true => rfl
      | false => exact ih hl

@[simp]
theorem commentOffset?_eq (code : Text) : commentOffset? code = .ok (Code.commentOffset? code) := by
  rw [commentOffset?, hashOffsets_eq]
  exact findM?_map fun cut hcut => isCommentAt_eq hcut

/-- The blank and the hash of a comment stand between two boundaries. -/
theorem isBoundary_of_commentOffset? {code : Text} {offset : Nat} (h : Code.commentOffset? code = some offset) :
    code.isBoundary offset = true ∧ code.isBoundary (offset + 2) = true := by
  obtain ⟨⟨before, remark⟩, hcomment, rfl⟩ := Option.map_eq_some_iff.mp h
  obtain rfl := Code.append_of_comment? hcomment
  exact ⟨Text.isBoundary_append _ _, Text.isBoundary_iff.mpr ⟨before ++ [' ', '#'], remark, by simp,
    (Text.byteSize_append before [' ', '#']).symm⟩⟩

end Sliced

end Haml
