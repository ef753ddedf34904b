import Haml.Code.Split
import Haml.Proofs.Enclosed

/-!
# Reading on behind a text

The search for a closing delimiter and the cut at top-level separators read code in the same way: quotes
first, and outside of quotes a depth. They differ in what a character does to the depth and in where they
end. What either of them makes of a text that does not end it is the standing and the depth behind that
text, from which it reads on.
-/

namespace Haml.Code

/-- What a character outside of quotes makes of a depth; none if the reading ends at it. -/
abbrev Count := Nat → Char → Option Nat

/-- The standing and the depth behind a text; none if the reading ends in it. -/
def past? (count : Count) : Quoting → Nat → Text → Option (Quoting × Nat)
  | quoting, depth, [] => some (quoting, depth)
  | .quoted quote escaped, depth, c :: cs =>
    past? count ((Quoting.quoted quote escaped).next c) depth cs
  | .code, depth, c :: cs =>
    if isQuote c then past? count (.quoted c false) depth cs
    else (count depth c).bind fun depth => past? count .code depth cs

/-- Delimiters nest, and the reading ends at the closing one that belongs to depth one. -/
def countDelimiters (opening closing : Char) : Count := fun depth c =>
  if c = opening then some (depth + 1)
  else if c = closing && depth = 1 then none
  else if c = closing then some (depth - 1)
  else some depth

/-- Brackets of all kinds nest, and the reading ends at a separator outside of them. -/
def countBrackets (separator : Char) : Count := fun depth c =>
  if isOpening c then some (depth + 1)
  else if isClosing c then some (depth - 1)
  else if c = separator && depth = 0 then none
  else some depth

variable {count : Count} {quoting quoting' : Quoting} {depth depth' : Nat} {s : Text}

theorem past?_append (count : Count) (quoting : Quoting) (depth : Nat) (s t : Text) :
    past? count quoting depth (s ++ t)
      = (past? count quoting depth s).bind fun place => past? count place.1 place.2 t := by
  induction s generalizing quoting depth with
  | nil => cases quoting <;> rfl
  | cons c cs ih =>
      cases quoting with
      | quoted quote escaped => exact ih _ _
      | code =>
          simp only [List.cons_append, past?]
          split
          · exact ih _ _
          · cases count depth c with
            | none => rfl
            | some depth => exact ih _ _

/-- Behind a text that is read past, the reading goes on from the place that it got to. -/
theorem past?_trans (h : past? count quoting depth s = some (quoting', depth')) (t : Text) :
    past? count quoting depth (s ++ t) = past? count quoting' depth' t := by
  rw [past?_append, h]
  rfl

/-- Characters that are no quotes and leave the depth as it is are read past. -/
theorem past?_of_plain (hquote : ∀ c ∈ s, isQuote c = false)
    (hcount : ∀ c ∈ s, count depth c = some depth) : past? count .code depth s = some (.code, depth) := by
  induction s with
  | nil => rfl
  | cons c cs ih =>
      obtain ⟨hc, hquote⟩ := List.forall_mem_cons.mp hquote
      obtain ⟨hstay, hcount⟩ := List.forall_mem_cons.mp hcount
      rw [past?, hc, hstay]
      exact ih hquote hcount

/-! ## Closing delimiters -/

section

variable {opening closing : Char}

/-- Outside of quotes a character is counted, and closes what the reading is in if it has no count. -/
theorem splitAtClose_cons {c : Char} (h : isQuote c = false) (depth : Nat) (cs : Text) :
    splitAtClose opening closing .code depth (c :: cs)
      = match countDelimiters opening closing depth c with
        | some depth => (splitAtClose opening closing .code depth cs).map (Prod.map (c :: ·) id)
        | none => some ([], cs) := by
  rw [splitAtClose, if_neg (by simp [h]), countDelimiters]
  split_ifs <;> rfl

theorem splitAtClose_append_of_past?
    (h : past? (countDelimiters opening closing) quoting depth s = some (quoting', depth')) (t : Text) :
    splitAtClose opening closing quoting depth (s ++ t)
      = (splitAtClose opening closing quoting' depth' t).map (Prod.map (s ++ ·) id) := by
  induction s generalizing quoting depth with
  | nil =>
      obtain ⟨rfl, rfl⟩ : quoting = quoting' ∧ depth = depth' := by
        cases quoting <;> simpa [past?] using h
      exact Option.map_id'.symm
  | cons c cs ih =>
      have hcons : ∀ found : Option (Text × Text),
          (found.map (Prod.map (cs ++ ·) id)).map (Prod.map (c :: ·) id)
            = found.map (Prod.map (c :: cs ++ ·) id) := by
        rintro (_ | _) <;> rfl
      cases quoting with
      | quoted quote escaped => rw [List.cons_append, splitAtClose, ih h, hcons]
      | code =>
          rw [past?] at h
          cases hquote : isQuote c with
          | true =>
              rw [if_pos hquote] at h
              rw [List.cons_append, splitAtClose, if_pos hquote, ih h, hcons]
          | false =>
              rw [hquote] at h
              obtain ⟨counted, hcount, hrest⟩ := Option.bind_eq_some_iff.mp h
              rw [List.cons_append, splitAtClose_cons hquote, hcount]
              simp only
              rw [ih hrest, hcons]

/-- A text that cannot be read past holds the closing delimiter. -/
theorem isSome_splitAtClose (h : past? (countDelimiters opening closing) quoting depth s = none) :
    (splitAtClose opening closing quoting depth s).isSome = true := by
  induction s generalizing quoting depth with
  | nil => cases quoting <;> cases h
  | cons c cs ih =>
      cases quoting with
      | quoted quote escaped => rw [splitAtClose, Option.isSome_map, ih h]
      | code =>
          rw [past?] at h
          cases hquote : isQuote c with
          | true =>
              rw [if_pos hquote] at h
              rw [splitAtClose, if_pos hquote, Option.isSome_map, ih h]
          | false =>
              rw [splitAtClose_cons hquote]
              cases hcount : countDelimiters opening closing depth c with
              | none => rfl
              | some counted =>
                  rw [hquote, hcount] at h
                  rw [Option.isSome_map, ih h]

end

/-- A brace closes the text before it if a reading that is in one brace is so behind that text. -/
theorem splitAtClose_append_iff (t : Text) :
    splitAtClose '{' '}' .code 1 (s ++ '}' :: t) = some (s, t)
      ↔ past? (countDelimiters '{' '}') .code 1 s = some (.code, 1) := by
  constructor
  · intro h
    cases hpast : past? (countDelimiters '{' '}') .code 1 s with
    | none =>
        obtain ⟨parts, hparts⟩ := Option.isSome_iff_exists.mp (isSome_splitAtClose hpast)
        have heq := (splitAtClose_append hparts ('}' :: t)).symm.trans h
        have hlength := congrArg (List.length ∘ Prod.snd) (Option.some.inj heq)
        simp at hlength
        omega
    | some place =>
        obtain ⟨quoting, depth⟩ := place
        have heq := (splitAtClose_append_of_past? hpast ('}' :: t)).symm.trans h
        obtain ⟨⟨before, after⟩, hfound, hparts⟩ := Option.map_eq_some_iff.mp heq
        obtain rfl : before = [] := by simpa using congrArg Prod.fst hparts
        cases quoting with
        | quoted quote escaped => simp [splitAtClose] at hfound
        | code =>
            by_cases hdepth : depth = 1
            · rw [hdepth]
            · simp [splitAtClose, isQuote, hdepth] at hfound
  · intro h
    rw [splitAtClose_append_of_past? h]
    simp [splitAtClose, isQuote]

/-- A text is enclosed if a reading that is in one brace is so behind the text. -/
theorem isEnclosed_iff : IsEnclosed s ↔ past? (countDelimiters '{' '}') .code 1 s = some (.code, 1) :=
  splitAtClose_append_iff []

/-! ## Top-level separators -/

section

variable {separator : Char}

/-- Outside of quotes a character is counted, and cuts the text if it has no count. -/
theorem pieces_cons {c : Char} (h : isQuote c = false) (depth : Nat) (cs : Text) :
    pieces separator .code depth (c :: cs)
      = match countBrackets separator depth c with
        | some depth => Text.consHead c (pieces separator .code depth cs)
        | none => [] :: pieces separator .code 0 cs := by
  rw [pieces, if_neg (by simp [h]), countBrackets]
  split_ifs <;> rfl

/-- A text that is read past stands in front of the first piece of what follows. -/
theorem pieces_append_of_past? (h : past? (countBrackets separator) quoting depth s = some (quoting', depth'))
    (t : Text) :
    pieces separator quoting depth (s ++ t)
      = s.foldr Text.consHead (pieces separator quoting' depth' t) := by
  induction s generalizing quoting depth with
  | nil =>
      obtain ⟨rfl, rfl⟩ : quoting = quoting' ∧ depth = depth' := by
        cases quoting <;> simpa [past?] using h
      rfl
  | cons c cs ih =>
      cases quoting with
      | quoted quote escaped => rw [List.cons_append, pieces, ih h, List.foldr_cons]
      | code =>
          rw [past?] at h
          cases hquote : isQuote c with
          | true =>
              rw [if_pos hquote] at h
              rw [List.cons_append, pieces, if_pos hquote, ih h, List.foldr_cons]
          | false =>
              rw [hquote] at h
              obtain ⟨counted, hcount, hrest⟩ := Option.bind_eq_some_iff.mp h
              rw [List.cons_append, pieces_cons hquote, hcount]
              simp only
              rw [ih hrest, List.foldr_cons]

end

end Haml.Code
