import Haml.Proofs.Expansion
import Haml.Proofs.Literal

/-!
# Literals with interpolations

A double-quoted literal is written from pieces: text whose quotes and backslashes are hidden, and code in
markers. Escapes are resolved over the whole literal, and then the markers are found in what they leave.
Main statement: what the literal is read as, and that this is its pieces, one by one, exactly if no marker
comes right behind text that ends in a backslash.
-/

namespace Haml.Attribute

open Interpolation

/-- A piece of a double-quoted literal. -/
inductive Piece where
  | literal (text : Text)
  | marker (code : Text)
  deriving DecidableEq, Repr

namespace Piece

/-- A piece as the literal holds it. -/
def source : Piece → Text
  | .literal text => hide '"' text
  | .marker code => '#' :: '{' :: (code ++ ['}'])

/-- A piece once escapes are resolved. -/
def resolved : Piece → Text
  | .literal text => text
  | .marker code => '#' :: '{' :: (code ++ ['}'])

/-- A piece as the page has it. -/
def page : Piece → Text
  | .literal text => text
  | .marker code => Erb.output code

/-- Text without hashes, or some code without closing braces, double quotes and backslashes. -/
inductive IsPlain : Piece → Prop where
  | literal {text : Text} : '#' ∉ text → IsPlain (.literal text)
  | marker {code : Text} : code ≠ [] → '}' ∉ code → '"' ∉ code → '\\' ∉ code → IsPlain (.marker code)

/--
What is made of text before the next marker and of the pieces behind it. A marker right behind a backslash
stays as it is, and the backslash is dropped.
-/
def shown : (lead : Text) → List Piece → Text
  | lead, [] => lead
  | lead, .literal text :: rest => shown (lead ++ text) rest
  | lead, .marker code :: rest =>
    if lead.getLast? = some '\\' then lead.dropLast ++ '#' :: '{' :: (code ++ '}' :: shown [] rest)
    else lead ++ (Erb.output code ++ shown [] rest)

/-- Whether no marker comes right behind a backslash, `lead` being the text before the pieces. -/
def IsApart : (lead : Text) → List Piece → Prop
  | _, [] => True
  | lead, .literal text :: rest => IsApart (lead ++ text) rest
  | lead, .marker _ :: rest => lead.getLast? ≠ some '\\' ∧ IsApart [] rest

instance decidableIsApart : (lead : Text) → (pieces : List Piece) → Decidable (IsApart lead pieces)
  | _, [] => .isTrue trivial
  | lead, .literal text :: rest => decidableIsApart (lead ++ text) rest
  | _, .marker _ :: rest => @instDecidableAnd _ _ _ (decidableIsApart [] rest)

variable {piece : Piece} {pieces : List Piece} {lead : Text}

/-! ## Escapes -/

theorem IsPlain.isBody (h : piece.IsPlain) : IsBody '"' piece.source := by
  cases h with
  | literal => exact isBody_hide rfl _
  | marker _ _ hquote hslash => exact .of_notMem (by simp [source, hquote]) (by simp [source, hslash])

theorem IsPlain.unescape_source (h : piece.IsPlain) : unescape piece.source = piece.resolved := by
  cases h with
  | literal => exact unescape_hide rfl _
  | marker _ _ _ hslash => exact unescape_of_notMem (by simp [source, hslash])

theorem isBody_flatMap (h : ∀ piece ∈ pieces, piece.IsPlain) : IsBody '"' (pieces.flatMap source) := by
  induction pieces with
  | nil => exact .nil
  | cons first rest ih =>
      obtain ⟨hfirst, hrest⟩ := List.forall_mem_cons.mp h
      exact hfirst.isBody.append (ih hrest)

theorem unescape_flatMap (h : ∀ piece ∈ pieces, piece.IsPlain) :
    unescape (pieces.flatMap source) = pieces.flatMap resolved := by
  induction pieces with
  | nil => rfl
  | cons first rest ih =>
      obtain ⟨hfirst, hrest⟩ := List.forall_mem_cons.mp h
      rw [List.flatMap_cons, List.flatMap_cons, hfirst.isBody.unescape_append, hfirst.unescape_source, ih hrest]

/-! ## Markers -/

theorem plain_of_notMem {s : Text} (h : '#' ∉ s) : ¬ ['#', '{'] <:+: s :=
  fun hopen => h (hopen.subset List.mem_cons_self)

theorem expand_append_eq (h : ∀ piece ∈ pieces, piece.IsPlain) (hlead : '#' ∉ lead) :
    expand (lead ++ pieces.flatMap resolved) = shown lead pieces := by
  -- The induction is on the pieces, and carries along the text that stands before the next marker.
  induction pieces generalizing lead with
  | nil => simp [expand_of_plain (plain_of_notMem hlead), shown]
  | cons first rest ih =>
      obtain ⟨hfirst, hrest⟩ := List.forall_mem_cons.mp h
      cases hfirst with
      | @literal text htext =>
          have hboth : '#' ∉ lead ++ text := by simp [hlead, htext]
          simpa [resolved, shown] using ih hrest hboth
      | @marker code hne hclose _ _ =>
          have hafter : expand (rest.flatMap resolved) = shown [] rest := ih hrest List.not_mem_nil
          have hmarker : (Piece.marker code :: rest).flatMap resolved
              = '#' :: '{' :: (code ++ '}' :: rest.flatMap resolved) := by
            simp [resolved]
          rw [hmarker, shown]
          split
          · rename_i hlast
            obtain ⟨front, rfl⟩ := List.getLast?_eq_some_iff.mp hlast
            have hfront : '#' ∉ front := fun hmem => hlead (List.mem_append_left _ hmem)
            have hslash : marker? ('\\' :: '#' :: '{' :: (code ++ '}' :: rest.flatMap resolved)) = none :=
              marker?_eq_none (by rintro ⟨tail, ⟨⟩⟩)
            rw [List.append_assoc, List.singleton_append, List.dropLast_concat, ← hafter,
              expand_append_of_plain (plain_of_notMem hfront) (fun _ heq => by cases heq) (fun _ => hslash),
              expand_escaped hne hclose]
          · rename_i hlast
            rw [expand_append_of_plain (plain_of_notMem hlead) (fun _ heq => by cases heq)
              fun heq => absurd heq hlast, expand_marker hne hclose, hafter]

theorem shown_eq_iff (lead : Text) (pieces : List Piece) :
    shown lead pieces = lead ++ pieces.flatMap page ↔ IsApart lead pieces := by
  induction pieces generalizing lead with
  | nil => simp [shown, IsApart]
  | cons first rest ih =>
      cases first with
      | literal text => simpa [shown, page, IsApart] using ih (lead ++ text)
      | marker code =>
          rw [shown, List.flatMap_cons, page, IsApart]
          split
          · rename_i hlast
            obtain ⟨front, rfl⟩ := List.getLast?_eq_some_iff.mp hlast
            -- Where the backslash should be, there is the hash of the marker.
            simp
          · rename_i hlast
            simpa [hlast] using ih []

end Piece

/--
A literal that is written from plain pieces is read as a string, in which each marker right behind a backslash
stays as it is. So the string is what the pieces stand for, one by one, exactly if there is no such marker.
-/
theorem ofFragment?_pieces_iff {written key : Text} (hkey : IsWrittenKey written key) {pieces : List Piece}
    (h : ∀ piece ∈ pieces, piece.IsPlain) :
    ofFragment? (written ++ ':' :: ' ' :: '"' :: (pieces.flatMap Piece.source ++ ['"']))
        = some ⟨normalizeKey key, .string (Piece.shown [] pieces)⟩
      ∧ (Piece.shown [] pieces = pieces.flatMap Piece.page ↔ Piece.IsApart [] pieces) := by
  have hexpand : expand (pieces.flatMap Piece.resolved) = Piece.shown [] pieces :=
    Piece.expand_append_eq h List.not_mem_nil
  refine ⟨hkey.ofFragment? ?_, Piece.shown_eq_iff [] pieces⟩
  rw [quotedText?, (Piece.isBody_flatMap h).quotedBody?, Option.map_some, Piece.unescape_flatMap h, hexpand]

/-- Hidden quotes and backslashes of a text may stand before code, if none of them is its last character. -/
theorem ofFragment?_pieces_quotes :
    ofFragment? "title: \"\\\"#\x7bx\x7d\\\" \\\\ #\x7by(1)\x7d\"".toList
      = some ⟨"title".toList, .string "\"<%= x %>\" \\ <%= y(1) %>".toList⟩ := by
  have hkey : IsWrittenKey "title".toList "title".toList := .bare (by decide)
  have hplain : ∀ piece ∈ ([.literal ['"'], .marker ['x'], .literal "\" \\ ".toList,
      .marker "y(1)".toList] : List Piece), piece.IsPlain := by
    simp only [List.forall_mem_cons, List.not_mem_nil, false_imp_iff, implies_true, and_true]
    exact ⟨.literal (by decide), .marker (by decide) (by decide) (by decide) (by decide), .literal (by decide),
      .marker (by decide) (by decide) (by decide) (by decide)⟩
  obtain ⟨hread, hiff⟩ := ofFragment?_pieces_iff hkey hplain
  rw [hiff.mpr (by decide)] at hread
  exact hread

/-- A backslash at the end of a text hides the marker of the code behind it. -/
theorem ofFragment?_pieces_backslash :
    ([.literal "a\\".toList, .marker ['x']] : List Piece).flatMap Piece.source = "a\\\\#\x7bx\x7d".toList
      ∧ ofFragment? "title: \"a\\\\#\x7bx\x7d\"".toList
        ≠ some ⟨"title".toList, .string "a\\<%= x %>".toList⟩ := by
  have hkey : IsWrittenKey "title".toList "title".toList := .bare (by decide)
  have htext : quotedText? "\"a\\\\#\x7bx\x7d\"".toList = some "a#\x7bx\x7d".toList := by decide +kernel
  have hread : ofFragment? "title: \"a\\\\#\x7bx\x7d\"".toList
      = some ⟨"title".toList, .string "a#\x7bx\x7d".toList⟩ := hkey.ofFragment? htext
  refine ⟨by decide, fun heq => ?_⟩
  rw [hread] at heq
  exact absurd (Value.string.inj (Attribute.mk.inj (Option.some.inj heq)).2) (by decide)

end Haml.Attribute
