import Haml.Proofs.Reading

/-!
# Attributes on lines of their own

A fold takes the attribute lines apart into fragments and joins these with commas. Main statement: if the
lines close their quotes and braces, so does what they are joined to. Blanks and commas may come or go
between the fragments, since they are counted nowhere; they only end the hold of a backslash that stands
last in a quoted region.
-/

namespace Haml

namespace Code

/-! ## Blanks and commas -/

/-- A character that separates fragments. -/
def isFiller (c : Char) : Bool := Text.isBlank c || c = ','

/-- The standing behind a character that is neither a backslash nor a quote. -/
def Quoting.settled : Quoting → Quoting
  | .code => .code
  | .quoted quote _ => .quoted quote false

/-- A standing that a reading can come to: what a region was opened by is a quote. -/
def Quoting.IsOpened : Quoting → Prop
  | .code => True
  | .quoted quote _ => isQuote quote = true

variable {count : Count} {quoting : Quoting} {depth : Nat} {place : Quoting × Nat} {s t : Text}

theorem Quoting.settled_settled (quoting : Quoting) : quoting.settled.settled = quoting.settled := by
  cases quoting <;> rfl

theorem Quoting.isOpened_code : Quoting.IsOpened .code := trivial

theorem Quoting.IsOpened.settled (h : quoting.IsOpened) : quoting.settled.IsOpened := by
  cases quoting <;> exact h

theorem Quoting.IsOpened.past? (h : quoting.IsOpened) (hpast : past? count quoting depth s = some place) :
    place.1.IsOpened := by
  induction s generalizing quoting depth with
  | nil =>
      cases quoting <;> (cases hpast; exact h)
  | cons c cs ih =>
      cases quoting with
      | quoted quote escaped =>
          refine ih ?_ hpast
          simp only [Quoting.next]
          split
          · exact Quoting.isOpened_code
          · exact h
      | code =>
          rw [Code.past?] at hpast
          split at hpast
          · exact ih (by assumption) hpast
          · obtain ⟨_, _, hrest⟩ := Option.bind_eq_some_iff.mp hpast
            exact ih Quoting.isOpened_code hrest

theorem isFiller_of_isBlank {c : Char} (h : Text.isBlank c = true) : isFiller c = true := by
  simp [isFiller, h]

theorem isFiller_of_mem_comma : ∀ c ∈ ", ".toList, isFiller c = true := List.all_eq_true.mp rfl

theorem of_isFiller {c : Char} (h : isFiller c = true) :
    isQuote c = false ∧ c ≠ '\\' ∧ c ≠ '{' ∧ c ≠ '}' := by
  have hnone : (['"', '\'', '\\', '{', '}'].all fun d => !isFiller d) = true := by decide
  have hnotMem := notMem_of_all hnone h
  simp only [List.mem_cons, List.not_mem_nil, or_false, not_or] at hnotMem
  obtain ⟨hdouble, hsingle, hslash, hopening, hclosing⟩ := hnotMem
  exact ⟨by simp [isQuote, hdouble, hsingle], hslash, hopening, hclosing⟩

/-- Fillers leave the depth as it is, and settle the standing. -/
theorem past?_fillers (h : quoting.IsOpened) (hs : ∀ c ∈ s, isFiller c = true)
    (hne : s ≠ [] ∨ quoting.settled = quoting) :
    past? (countDelimiters '{' '}') quoting depth s = some (quoting.settled, depth) := by
  induction s generalizing quoting with
  | nil =>
      rw [hne.resolve_left (fun h => h rfl)]
      cases quoting <;> rfl
  | cons c cs ih =>
      obtain ⟨hc, hcs⟩ := List.forall_mem_cons.mp hs
      obtain ⟨hquote, hslash, hopening, hclosing⟩ := of_isFiller hc
      cases quoting with
      | code =>
          have hcount : countDelimiters '{' '}' depth c = some depth := by
            simp [countDelimiters, hopening, hclosing]
          rw [past?, hquote, hcount]
          exact ih h hcs (.inr rfl)
      | quoted quote escaped =>
          have hother : c ≠ quote := by
            rintro rfl
            rw [show isQuote c = true from h] at hquote
            cases hquote
          have hnext : (Quoting.quoted quote escaped).next c = .quoted quote false := by
            simp [Quoting.next, hother, hslash]
          rw [past?, hnext]
          exact ih (show Quoting.IsOpened (.quoted quote false) from h) hcs (.inr rfl)

/-- What fillers stand behind a text does not matter, if there are any. -/
theorem past?_append_fillers (h : quoting.IsOpened) (ht : ∀ c ∈ t, isFiller c = true) (hne : t ≠ []) :
    past? (countDelimiters '{' '}') quoting depth (s ++ t)
      = (past? (countDelimiters '{' '}') quoting depth s).map (Prod.map Quoting.settled id) := by
  rw [past?_append]
  cases hpast : past? (countDelimiters '{' '}') quoting depth s with
  | none => rfl
  | some place => exact past?_fillers (h.past? hpast) ht (.inl hne)

end Code

/-! ## Fragments of lines -/

namespace Statement

open Code

variable {lines : List Line} {quoting : Quoting} {depth : Nat} {s : Text}

/-- The fragments that lines hold. -/
def fragmentsOf (lines : List Line) : List Text :=
  (lines.map fun line => withoutComma line.stripped).filter (· != [])

/-- The text of lines, each with the newline that ends it. -/
def textOf (lines : List Line) : Text := lines.flatMap fun line => line.text ++ ['\n']

/-- A line is its fragment with fillers around it. -/
theorem exists_fillers (line : Line) :
    ∃ lead trail, line.text = lead ++ (withoutComma line.stripped ++ trail)
      ∧ (∀ c ∈ lead, isFiller c = true) ∧ ∀ c ∈ trail, isFiller c = true := by
  have hlead : ∀ c ∈ line.text.takeWhile Text.isBlank, isFiller c = true := fun c hc =>
    isFiller_of_isBlank (List.mem_takeWhile_imp hc)
  obtain ⟨blanks, hend, hblanks⟩ := Text.exists_trimEnd_append (Text.trimStart line.text)
  have htext : line.text = line.text.takeWhile Text.isBlank ++ (line.stripped ++ blanks) := by
    rw [Line.stripped, Text.trim, ← hend, Text.takeWhile_append_trimStart]
  obtain ⟨inner, comma, hcomma, hinner, hfillers⟩ : ∃ inner comma, line.stripped = inner ++ comma
      ∧ withoutComma line.stripped = Text.trimEnd inner ∧ ∀ c ∈ comma, isFiller c = true := by
    unfold withoutComma Text.beforeLast?
    split
    · rename_i hlast
      refine ⟨line.stripped.dropLast, [','], ?_, rfl, List.forall_mem_singleton.mpr rfl⟩
      rw [List.dropLast_append_getLast? _ hlast]
    · exact ⟨line.stripped, [], by simp, rfl, by simp⟩
  obtain ⟨gap, hgap, hgaps⟩ := Text.exists_trimEnd_append inner
  refine ⟨_, gap ++ (comma ++ blanks), ?_, hlead, ?_⟩
  · calc line.text = line.text.takeWhile Text.isBlank ++ (line.stripped ++ blanks) := htext
      _ = line.text.takeWhile Text.isBlank ++ (inner ++ comma ++ blanks) := by rw [hcomma]
      _ = line.text.takeWhile Text.isBlank ++ (Text.trimEnd inner ++ gap ++ comma ++ blanks) := by
          rw [← hgap]
      _ = _ := by simp [hinner]
  · intro c hc
    rcases List.mem_append.mp hc with hc | hc
    · exact isFiller_of_isBlank (hgaps c hc)
    · rcases List.mem_append.mp hc with hc | hc
      · exact hfillers c hc
      · exact isFiller_of_isBlank (hblanks c hc)

theorem past?_line (h : quoting.IsOpened) (hsettled : quoting.settled = quoting) (line : Line) :
    past? (countDelimiters '{' '}') quoting depth (line.text ++ ['\n'])
      = past? (countDelimiters '{' '}') quoting depth (withoutComma line.stripped ++ ", ".toList) := by
  obtain ⟨lead, trail, htext, hlead, htrail⟩ := exists_fillers line
  have hstart : past? (countDelimiters '{' '}') quoting depth lead = some (quoting, depth) := by
    rw [past?_fillers h hlead (.inr hsettled), hsettled]
  have htrail' : ∀ c ∈ trail ++ ['\n'], isFiller c = true := by
    simpa [or_imp, forall_and, show isFiller '\n' = true from rfl] using htrail
  rw [htext, List.append_assoc, past?_trans hstart, List.append_assoc,
    past?_append_fillers h htrail' (by simp), past?_append_fillers h isFiller_of_mem_comma (by decide)]

/-- Lines are read past as their fragments are, whatever the layout. -/
theorem past?_textOf (h : quoting.IsOpened) (hsettled : quoting.settled = quoting) :
    past? (countDelimiters '{' '}') quoting depth (textOf lines)
      = past? (countDelimiters '{' '}') quoting depth ((fragmentsOf lines).flatMap (· ++ ", ".toList)) := by
  induction lines generalizing quoting depth with
  | nil => rfl
  | cons line rest ih =>
      rw [textOf, List.flatMap_cons, ← textOf, past?_append, past?_line h hsettled]
      by_cases hempty : withoutComma line.stripped = []
      · have hkeep : fragmentsOf (line :: rest) = fragmentsOf rest := by
          simp [fragmentsOf, hempty]
        rw [hkeep, hempty, List.nil_append, past?_fillers h isFiller_of_mem_comma (.inr hsettled), hsettled]
        exact ih h hsettled
      · have hkeep : fragmentsOf (line :: rest) = withoutComma line.stripped :: fragmentsOf rest := by
          simp [fragmentsOf, hempty]
        have hsplit := past?_append (countDelimiters '{' '}') quoting depth
          (withoutComma line.stripped ++ ", ".toList)
        rw [hkeep, List.flatMap_cons, hsplit]
        cases hpast : past? (countDelimiters '{' '}') quoting depth
            (withoutComma line.stripped ++ ", ".toList) with
        | none => rfl
        | some place =>
            rw [past?_append_fillers h isFiller_of_mem_comma (by decide)] at hpast
            obtain ⟨before, hbefore, rfl⟩ := Option.map_eq_some_iff.mp hpast
            exact ih (h.past? hbefore).settled before.1.settled_settled

/-- The fragments of enclosed lines are enclosed when they are joined. -/
theorem isEnclosed_join (h : IsEnclosed (textOf lines)) :
    IsEnclosed (' ' :: (Text.join ", ".toList (fragmentsOf lines) ++ [' '])) := by
  rw [isEnclosed_iff, past?_textOf Quoting.isOpened_code rfl] at h
  have hspace : past? (countDelimiters '{' '}') .code 1 [' '] = some (.code, 1) := rfl
  have hjoin : past? (countDelimiters '{' '}') .code 1 (Text.join ", ".toList (fragmentsOf lines) ++ [' '])
      = some (.code, 1) := by
    cases hfragments : fragmentsOf lines with
    | nil => exact hspace
    | cons first rest =>
        rw [hfragments, Text.flatMap_append_eq_join] at h
        have hblank : ∀ c ∈ [' '], isFiller c = true := List.forall_mem_singleton.mpr rfl
        rw [past?_append_fillers Quoting.isOpened_code isFiller_of_mem_comma (by decide)] at h
        rw [past?_append_fillers Quoting.isOpened_code hblank (by decide), h]
  exact isEnclosed_iff.mpr ((past?_trans hspace _).trans hjoin)

end Statement

end Haml
