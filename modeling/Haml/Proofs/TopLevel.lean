import Haml.Proofs.Reading

/-!
# Parts between top-level separators

A split loses no character but a separator that ends the text. Main statement: the text is cut at separators
at top level, so that the parts joined with the separator are the text up to a last separator; no part holds a
separator at top level, and each part that is not empty is a part by itself.
-/

namespace Haml.Code

/-! ## Top level -/

/-- Brackets of all kinds nest, and the reading never ends. -/
def countNesting : Count := fun depth c =>
  some (if isOpening c then depth + 1 else if isClosing c then depth - 1 else depth)

/-- A character that has no meaning of its own in code, and so can separate. -/
def IsOrdinary (c : Char) : Prop := isQuote c = false ∧ isOpening c = false ∧ isClosing c = false

/--
Read on from a standing and a depth, the last character of the text is a separator outside of all quotes and
brackets.
-/
structure EndsInSeparatorFrom (separator : Char) (quoting : Quoting) (depth : Nat) (s : Text) : Prop where
  getLast?_eq : s.getLast? = some separator
  isOrdinary : IsOrdinary separator
  past?_dropLast : past? countNesting quoting depth s.dropLast = some (.code, 0)

/-- The last character of the text is a separator outside of all quotes and brackets. -/
def EndsInSeparator (separator : Char) (s : Text) : Prop := EndsInSeparatorFrom separator .code 0 s

/-- The text holds a separator outside of all quotes and brackets. -/
def HoldsSeparator (separator : Char) (s : Text) : Prop := ∃ t, t <+: s ∧ EndsInSeparator separator t

instance (c : Char) : Decidable (IsOrdinary c) :=
  inferInstanceAs (Decidable (isQuote c = false ∧ isOpening c = false ∧ isClosing c = false))

instance (separator : Char) (s : Text) : Decidable (EndsInSeparator separator s) :=
  decidable_of_iff (s.getLast? = some separator ∧ IsOrdinary separator
      ∧ past? countNesting .code 0 s.dropLast = some (.code, 0))
    ⟨fun h => ⟨h.1, h.2.1, h.2.2⟩, fun h => ⟨h.getLast?_eq, h.isOrdinary, h.past?_dropLast⟩⟩

variable {separator c : Char} {quoting : Quoting} {depth : Nat} {place : Quoting × Nat} {s : Text}
  {parts : List Text}

/-- A reading ends at nothing but an ordinary separator outside of brackets. -/
theorem countBrackets_eq_none_iff (hquote : isQuote c = false) :
    countBrackets separator depth c = none ↔ c = separator ∧ IsOrdinary separator ∧ depth = 0 := by
  by_cases hc : c = separator
  · subst hc
    cases hopening : isOpening c <;> cases hclosing : isClosing c <;>
      simp [countBrackets, IsOrdinary, hopening, hclosing, hquote]
  · simp only [countBrackets, hc, decide_false, Bool.false_and, Bool.false_eq_true, if_false]
    split_ifs <;> simp

/-- A text that is read past without a cut is read as its brackets nest. -/
theorem past?_countNesting (h : past? (countBrackets separator) quoting depth s = some place) :
    past? countNesting quoting depth s = some place := by
  induction s generalizing quoting depth with
  | nil => cases quoting <;> exact h
  | cons c cs ih =>
      cases quoting with
      | quoted quote escaped => exact ih h
      | code =>
          rw [past?] at h ⊢
          cases hquote : isQuote c with
          | true =>
              rw [if_pos hquote] at h
              exact ih h
          | false =>
              rw [hquote] at h
              obtain ⟨counted, hcount, hrest⟩ := Option.bind_eq_some_iff.mp h
              have hnesting : countNesting depth c = some counted := by
                rw [countBrackets] at hcount
                rw [countNesting]
                split_ifs at hcount ⊢ <;> simp_all
              simp only [hnesting]
              exact ih hrest

/-- A text that is read past does not end in a separator at top level. -/
theorem not_endsInSeparatorFrom (h : past? (countBrackets separator) quoting depth s = some place) :
    ¬ EndsInSeparatorFrom separator quoting depth s := by
  rintro ⟨hlast, hordinary, htop⟩
  obtain ⟨front, rfl⟩ := List.getLast?_eq_some_iff.mp hlast
  rw [List.dropLast_concat] at htop
  rw [past?_append] at h
  obtain ⟨behind, hfront, hseparator⟩ := Option.bind_eq_some_iff.mp h
  obtain rfl := Option.some.inj ((past?_countNesting hfront).symm.trans htop)
  have hcut : countBrackets separator 0 separator = none :=
    (countBrackets_eq_none_iff hordinary.1).mpr ⟨rfl, hordinary, rfl⟩
  simp [past?, hordinary.1, hcut] at hseparator

theorem not_holdsSeparator (h : past? (countBrackets separator) .code 0 s = some place) :
    ¬ HoldsSeparator separator s := by
  rintro ⟨t, ⟨behind, rfl⟩, hends⟩
  rw [past?_append] at h
  obtain ⟨_, ht, _⟩ := Option.bind_eq_some_iff.mp h
  exact not_endsInSeparatorFrom ht hends

/-! ## Cuts -/

/-- The text as parts that are read past, with the separator at top level between neighbours. -/
inductive IsCutInto (separator : Char) : Quoting → Nat → Text → List Text → Prop where
  | last {quoting : Quoting} {depth : Nat} {part : Text} {place : Quoting × Nat} :
      past? (countBrackets separator) quoting depth part = some place →
      IsCutInto separator quoting depth part [part]
  | cut {quoting : Quoting} {depth : Nat} {part rest : Text} {parts : List Text} :
      past? (countBrackets separator) quoting depth part = some (.code, 0) → IsOrdinary separator →
      IsCutInto separator .code 0 rest parts →
      IsCutInto separator quoting depth (part ++ separator :: rest) (part :: parts)

namespace IsCutInto

/-- A character that does not cut goes in front of the first part. -/
theorem cons {quoting' : Quoting} {depth' : Nat}
    (hc : ∀ t, past? (countBrackets separator) quoting depth (c :: t)
      = past? (countBrackets separator) quoting' depth' t)
    (h : IsCutInto separator quoting' depth' s parts) :
    IsCutInto separator quoting depth (c :: s) (Text.consHead c parts) := by
  cases h with
  | last hpart => exact .last ((hc s).trans hpart)
  | cut hpart hordinary hrest => exact .cut ((hc _).trans hpart) hordinary hrest

theorem pieces (separator : Char) (quoting : Quoting) (depth : Nat) (s : Text) :
    IsCutInto separator quoting depth s (Code.pieces separator quoting depth s) := by
  induction s generalizing quoting depth with
  | nil => cases quoting <;> exact .last rfl
  | cons c cs ih =>
      cases quoting with
      | quoted quote escaped => exact (ih _ _).cons fun t => rfl
      | code =>
          cases hquote : isQuote c with
          | true =>
              rw [Code.pieces, if_pos hquote]
              exact (ih _ _).cons fun t => by rw [past?, if_pos hquote]
          | false =>
              rw [pieces_cons hquote]
              cases hcount : countBrackets separator depth c with
              | some counted =>
                  exact (ih _ _).cons fun t => by
                    rw [past?, hquote, hcount]
                    rfl
              | none =>
                  obtain ⟨rfl, hordinary, rfl⟩ := (countBrackets_eq_none_iff hquote).mp hcount
                  have hcut : IsCutInto c .code 0 ([] ++ c :: cs) ([] :: Code.pieces c .code 0 cs) :=
                    .cut rfl hordinary (ih _ _)
                  exact hcut

theorem ne_nil (h : IsCutInto separator quoting depth s parts) : parts ≠ [] := by
  cases h <;> exact List.cons_ne_nil _ _

theorem join_eq (h : IsCutInto separator quoting depth s parts) : Text.join [separator] parts = s := by
  induction h with
  | last => simp [Text.join]
  | cut _ _ hrest ih =>
      obtain ⟨next, more, rfl⟩ := List.exists_cons_of_ne_nil hrest.ne_nil
      rw [Text.join_cons_cons, ih, List.singleton_append]

/-- Each part is read past from where it starts, which is top level for all parts but the first. -/
theorem exists_places (h : IsCutInto separator quoting depth s parts) :
    ∃ first rest, parts = first :: rest
      ∧ (∃ place, past? (countBrackets separator) quoting depth first = some place)
      ∧ ∀ part ∈ rest, ∃ place, past? (countBrackets separator) .code 0 part = some place := by
  induction h with
  | last hpart => exact ⟨_, [], rfl, ⟨_, hpart⟩, List.forall_mem_nil _⟩
  | cut hpart _ _ ih =>
      obtain ⟨next, more, rfl, hnext, hmore⟩ := ih
      exact ⟨_, next :: more, rfl, ⟨_, hpart⟩, List.forall_mem_cons.mpr ⟨hnext, hmore⟩⟩

/-- The last part is empty if the text is, or if the text ends right behind a cut. -/
theorem getLast?_eq_nil_iff (h : IsCutInto separator quoting depth s parts) :
    parts.getLast? = some [] ↔ s = [] ∨ EndsInSeparatorFrom separator quoting depth s := by
  induction h with
  | last hpart => simp [not_endsInSeparatorFrom hpart]
  | @cut quoting depth part rest parts hpart hordinary hrest ih =>
      rw [List.getLast?_cons_of_ne_nil hrest.ne_nil, ih]
      have hfront := past?_countNesting hpart
      cases rest with
      | nil =>
          have hends : EndsInSeparatorFrom separator quoting depth (part ++ [separator]) :=
            ⟨List.getLast?_concat, hordinary, by rwa [List.dropLast_concat]⟩
          simp [hends]
      | cons d ds =>
          have hbehind : past? countNesting quoting depth (part ++ separator :: d :: ds).dropLast
              = past? countNesting .code 0 (d :: ds).dropLast := by
            rw [List.dropLast_append_of_ne_nil (List.cons_ne_nil _ _), List.dropLast_cons_cons,
              past?_trans hfront, past?, hordinary.1]
            simp [countNesting, hordinary.2]
          have hends : EndsInSeparatorFrom separator quoting depth (part ++ separator :: d :: ds)
              ↔ EndsInSeparatorFrom separator .code 0 (d :: ds) := by
            have hlast : (part ++ separator :: d :: ds).getLast? = (d :: ds).getLast? := by
              rw [List.getLast?_append_of_ne_nil _ (List.cons_ne_nil _ _), List.getLast?_cons_cons]
            constructor
            · rintro ⟨hget, hmark, htop⟩
              exact ⟨hlast ▸ hget, hmark, hbehind ▸ htop⟩
            · rintro ⟨hget, hmark, htop⟩
              exact ⟨hlast ▸ hget, hmark, hbehind ▸ htop⟩
          simp [hends]

end IsCutInto

/-! ## Parts of a split -/

/-- A text that is read past is one part. -/
theorem split_eq_singleton (h : past? (countBrackets separator) .code 0 s = some place) (hne : s ≠ []) :
    split separator s = [s] := by
  have hpieces := pieces_append_of_past? h []
  have hend : pieces separator place.1 place.2 [] = [[]] := by cases place.1 <;> rfl
  rw [List.append_nil, hend, Text.foldr_consHead, List.append_nil] at hpieces
  simp [split, hpieces, dropEmptyLast, hne]

/-- What a split drops is an empty part at the end: there is one if the text is empty or ends in a separator. -/
theorem split_append (separator : Char) (s : Text) :
    split separator s ++ (if s = [] ∨ EndsInSeparator separator s then [[]] else [])
      = pieces separator .code 0 s := by
  have hlast := (IsCutInto.pieces separator .code 0 s).getLast?_eq_nil_iff
  unfold split dropEmptyLast
  split_ifs with hpieces hends hends
  · exact List.dropLast_append_getLast? [] hpieces
  · exact absurd (hlast.mp hpieces) hends
  · exact absurd (hlast.mpr hends) hpieces
  · exact List.append_nil _

theorem split_ne_nil (hne : s ≠ []) : split separator s ≠ [] := by
  intro hnil
  have hpieces := split_append separator s
  have hjoin := (IsCutInto.pieces separator .code 0 s).join_eq
  rw [hnil] at hpieces
  rw [← hpieces] at hjoin
  split_ifs at hjoin <;> exact hne hjoin.symm

/-- What is missing from the parts joined is a separator at the end of the text. -/
theorem join_split (separator : Char) (s : Text) :
    Text.join [separator] (split separator s)
      ++ (if EndsInSeparator separator s then [separator] else []) = s := by
  by_cases hnil : s = []
  · subst hnil
    rfl
  have hpieces := split_append separator s
  have hjoin := (IsCutInto.pieces separator .code 0 s).join_eq
  by_cases hends : EndsInSeparator separator s
  · rw [if_pos (.inr hends)] at hpieces
    rw [← hpieces, Text.join_append (split_ne_nil hnil) (List.cons_ne_nil [] [])] at hjoin
    rw [if_pos hends]
    simpa [Text.join] using hjoin
  · rw [if_neg (not_or.mpr ⟨hnil, hends⟩), List.append_nil] at hpieces
    rw [if_neg hends, List.append_nil, hpieces, hjoin]

/-- Each part is read past from top level. -/
theorem past?_of_mem_split {part : Text} (hpart : part ∈ split separator s) :
    ∃ place, past? (countBrackets separator) .code 0 part = some place := by
  obtain ⟨first, rest, hpieces, hfirst, hrest⟩ := (IsCutInto.pieces separator .code 0 s).exists_places
  rcases List.mem_cons.mp (hpieces ▸ mem_pieces_of_mem_split hpart) with rfl | hmem
  · exact hfirst
  · exact hrest part hmem

/--
A text is cut at separators at top level into its parts, and an empty part at the end if there is one: it is
its parts joined with the separator, and one separator more if its last character is one at top level. No part
holds a separator at top level, and no part that is not empty is split again.
-/
theorem split_decomposes (separator : Char) (s : Text) :
    s = Text.join [separator] (split separator s)
        ++ (if EndsInSeparator separator s then [separator] else [])
      ∧ IsCutInto separator .code 0 s
        (split separator s ++ if s = [] ∨ EndsInSeparator separator s then [[]] else [])
      ∧ ∀ part ∈ split separator s,
        ¬ HoldsSeparator separator part ∧ (part ≠ [] → split separator part = [part]) := by
  refine ⟨(join_split separator s).symm, ?_, fun part hpart => ?_⟩
  · rw [split_append]
    exact .pieces separator .code 0 s
  · obtain ⟨place, hplace⟩ := past?_of_mem_split hpart
    exact ⟨not_holdsSeparator hplace, split_eq_singleton hplace⟩

/-- Brackets that are not in pairs, a separator in quotes, and two separators at the end. -/
theorem split_decomposes_trailing :
    let s := "f(a, b), z], 'x, y',,".toList
    let parts := ["f(a, b)".toList, " z]".toList, " 'x, y'".toList, []]
    HoldsSeparator ',' s ∧ split ',' s = parts ∧ s = Text.join [','] parts ++ [',']
      ∧ IsCutInto ',' .code 0 s (parts ++ [[]])
      ∧ ∀ part ∈ parts, ¬ HoldsSeparator ',' part ∧ (part ≠ [] → split ',' part = [part]) := by
  intro s parts
  have hholds : HoldsSeparator ',' s := ⟨"f(a, b),".toList, by decide +kernel, by decide +kernel⟩
  have hsplit : split ',' s = parts := by decide +kernel
  have hends : EndsInSeparator ',' s := by decide +kernel
  have hdecomposes := split_decomposes ',' s
  rw [hsplit, if_pos hends, if_pos (.inr hends)] at hdecomposes
  exact ⟨hholds, hsplit, hdecomposes⟩

end Haml.Code
