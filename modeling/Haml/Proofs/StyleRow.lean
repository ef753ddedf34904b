import Haml.Attribute.Merge
import Haml.Proofs.Text

/-!
# Style values as rows of declarations

A merge trims and ends both of its values, also those that are merged already. Main statement: this is done
again to no effect, so that values merged in any order of merges come to one row, the values one after the
other, each ended by a semicolon.
-/

namespace Haml.Attribute

/-- The text with a semicolon at its end. -/
def ended (style : Text) : Text := if style.getLast? = some ';' then style else style ++ [';']

/-- What style values declare: each one trimmed and ended by a semicolon, if anything is left of it. -/
def declarations (values : List Text) : List Text :=
  ((values.map Text.trim).filter (· != [])).map ended

/-- The declarations of style values with single spaces between them. -/
def styleRow (values : List Text) : Text := Text.join [' '] (declarations values)

/-- An order in which style values are merged, two at a time. -/
inductive Merging where
  | value (style : Text)
  | merge (left right : Merging)

namespace Merging

/-- The values that are merged, from left to right. -/
def values : Merging → List Text
  | value style => [style]
  | merge left right => left.values ++ right.values

def result : Merging → Text
  | value style => style
  | merge left right => mergeStyle left.result right.result

end Merging

/-! ## Rows -/

variable {s t : Text} {values more : List Text}

theorem declarations_append (values more : List Text) :
    declarations (values ++ more) = declarations values ++ declarations more := by
  simp [declarations]

/-- A text that neither needs trimming nor a semicolon. -/
structure IsDeclared (s : Text) : Prop where
  trim_eq : Text.trim s = s
  getLast?_eq : s.getLast? = some ';'

namespace IsDeclared

theorem ne_nil (h : IsDeclared s) : s ≠ [] := by
  rintro rfl
  cases h.getLast?_eq

theorem terminated_eq (h : IsDeclared s) : terminated s = s := by
  simp [terminated, h.trim_eq, h.getLast?_eq]

theorem isBlank_getLast? (h : IsDeclared s) : ∀ c ∈ s.getLast?, Text.isBlank c = false := by
  rw [h.getLast?_eq]
  rintro c ⟨⟩
  decide

theorem ended (htrim : Text.trim s = s) (hne : s ≠ []) : IsDeclared (ended s) := by
  unfold Attribute.ended
  split
  · rename_i hlast
    exact ⟨htrim, hlast⟩
  · have hend : Text.trimEnd s = s :=
      Text.trimEnd_eq_self fun c hc => Text.isBlank_getLast?_trim s c (by rwa [htrim])
    have hsemicolon := Text.trim_trimEnd_append (t := [';']) (by rwa [htrim]) (by rintro c ⟨⟩; decide)
    rw [hend, htrim] at hsemicolon
    exact ⟨hsemicolon, List.getLast?_concat⟩

theorem append (hs : IsDeclared s) (ht : IsDeclared t) : IsDeclared (s ++ ' ' :: t) := by
  have hlast : (s ++ ' ' :: t).getLast? = some ';' := by
    simp [List.getLast?_append, List.getLast?_cons, ht.getLast?_eq]
  have hend : (' ' :: t).getLast? = some ';' := by simp [List.getLast?_cons, ht.getLast?_eq]
  have htrim := Text.trim_trimEnd_append (s := s) (t := ' ' :: t) (by rw [hs.trim_eq]; exact hs.ne_nil)
    (by rw [hend]; rintro c ⟨⟩; decide)
  rw [Text.trimEnd_eq_self hs.isBlank_getLast?, hs.trim_eq] at htrim
  exact ⟨htrim, hlast⟩

theorem join {parts : List Text} (h : ∀ part ∈ parts, IsDeclared part) (hne : parts ≠ []) :
    IsDeclared (Text.join [' '] parts) := by
  induction parts with
  | nil => contradiction
  | cons first rest ih =>
      obtain ⟨hfirst, hrest⟩ := List.forall_mem_cons.mp h
      cases rest with
      | nil => simpa [Text.join] using hfirst
      | cons second more =>
          rw [Text.join_cons_cons, List.singleton_append]
          exact hfirst.append (ih hrest (List.cons_ne_nil _ _))

theorem of_mem_declarations (h : s ∈ declarations values) : IsDeclared s := by
  obtain ⟨style, hstyle, rfl⟩ := List.mem_map.mp h
  obtain ⟨hmem, hne⟩ := List.mem_filter.mp hstyle
  obtain ⟨value, _, rfl⟩ := List.mem_map.mp hmem
  exact ended (Text.trim_trim value) (by simpa using hne)

end IsDeclared

theorem isDeclared_styleRow (h : declarations values ≠ []) : IsDeclared (styleRow values) :=
  IsDeclared.join (fun _ => IsDeclared.of_mem_declarations) h

theorem styleRow_of_declarations_eq_nil (h : declarations values = []) : styleRow values = [] := by
  rw [styleRow, h]
  rfl

theorem styleRow_cases (values : List Text) : styleRow values = [] ∨ IsDeclared (styleRow values) := by
  by_cases h : declarations values = []
  · exact .inl (styleRow_of_declarations_eq_nil h)
  · exact .inr (isDeclared_styleRow h)

/-- A row needs no more trimming and no more semicolons. -/
theorem terminated_styleRow (values : List Text) : terminated (styleRow values) = styleRow values := by
  rcases styleRow_cases values with h | h
  · rw [h]
    rfl
  · exact h.terminated_eq

theorem terminated_eq_styleRow (style : Text) : terminated style = styleRow [style] := by
  by_cases h : Text.trim style = [] <;>
    simp [terminated, styleRow, declarations, ended, Text.join, h]

/-- A space between two rows makes one row of them, and goes with the blanks at the ends if one is empty. -/
theorem trim_styleRow_append (values more : List Text) :
    Text.trim (styleRow values ++ ' ' :: styleRow more) = styleRow (values ++ more) := by
  by_cases hvalues : declarations values = []
  · have hrow : styleRow (values ++ more) = styleRow more := by
      rw [styleRow, declarations_append, hvalues, List.nil_append, styleRow]
    rw [styleRow_of_declarations_eq_nil hvalues, List.nil_append, Text.trim_space, hrow]
    rcases styleRow_cases more with h | h
    · rw [h]
      rfl
    · exact h.trim_eq
  · have hdeclared := isDeclared_styleRow hvalues
    by_cases hmore : declarations more = []
    · have hrow : styleRow (values ++ more) = styleRow values := by
        rw [styleRow, declarations_append, hmore, List.append_nil, styleRow]
      have hnone : ∀ b ∈ ([] : Text), Text.isBlank b = true := List.forall_mem_nil _
      rw [styleRow_of_declarations_eq_nil hmore, hrow]
      exact Text.trim_padded hnone Text.isBlank_of_mem_space hdeclared.ne_nil hdeclared.trim_eq
    · rw [(hdeclared.append (isDeclared_styleRow hmore)).trim_eq, styleRow, styleRow, styleRow,
        declarations_append, Text.join_append hvalues hmore]
      rfl

/-! ## Merging -/

theorem mergeStyle_of_terminated (hs : terminated s = styleRow values) (ht : terminated t = styleRow more) :
    mergeStyle s t = styleRow (values ++ more) := by
  rw [mergeStyle, hs, ht, trim_styleRow_append]

/-- However far values are merged, what is made of them by one more merge is the row of them all. -/
theorem Merging.terminated_result (merging : Merging) :
    terminated merging.result = styleRow merging.values := by
  induction merging with
  | value style => exact terminated_eq_styleRow style
  | merge left right hleft hright =>
      rw [result, mergeStyle_of_terminated hleft hright, terminated_styleRow, values]

theorem mergeStyle_eq_styleRow (base additional : Text) :
    mergeStyle base additional = styleRow [base, additional] :=
  mergeStyle_of_terminated (terminated_eq_styleRow base) (terminated_eq_styleRow additional)

theorem mergeStyle_assoc (base middle additional : Text) :
    mergeStyle (mergeStyle base middle) additional = mergeStyle base (mergeStyle middle additional) := by
  have hleft : terminated (mergeStyle base middle) = styleRow [base, middle] := by
    rw [mergeStyle_eq_styleRow, terminated_styleRow]
  have hright : terminated (mergeStyle middle additional) = styleRow [middle, additional] := by
    rw [mergeStyle_eq_styleRow, terminated_styleRow]
  rw [mergeStyle_of_terminated hleft (terminated_eq_styleRow additional),
    mergeStyle_of_terminated (terminated_eq_styleRow base) hright]
  rfl

theorem declarations_of_trim_eq_nil (h : Text.trim s = []) : declarations [s] = [] := by
  simp [declarations, h]

/--
Style values that are merged in any order of merges come to the row of their declarations. So merging is
associative, a value of blanks adds nothing to either side, and a merged value is empty or ends with a semicolon.
-/
theorem result_merge (left right : Merging) :
    (Merging.merge left right).result = styleRow (Merging.merge left right).values
      ∧ (∀ base middle additional,
        mergeStyle (mergeStyle base middle) additional = mergeStyle base (mergeStyle middle additional))
      ∧ (∀ blanks, Text.trim blanks = [] →
        mergeStyle blanks (Merging.merge left right).result = (Merging.merge left right).result
          ∧ mergeStyle (Merging.merge left right).result blanks = (Merging.merge left right).result
          ∧ ∀ before after, styleRow (before ++ blanks :: after) = styleRow (before ++ after))
      ∧ ((Merging.merge left right).result = []
        ∨ (Merging.merge left right).result.getLast? = some ';') := by
  have hrow : (Merging.merge left right).result = styleRow (Merging.merge left right).values :=
    mergeStyle_of_terminated left.terminated_result right.terminated_result
  refine ⟨hrow, mergeStyle_assoc, fun blanks hblanks => ?_, ?_⟩
  · have hnone := declarations_of_trim_eq_nil hblanks
    have hterminated := terminated_eq_styleRow blanks
    have hdrop : ∀ before after, styleRow (before ++ blanks :: after) = styleRow (before ++ after) := by
      intro before after
      rw [styleRow, List.append_cons, declarations_append, declarations_append, hnone, List.append_nil,
        ← declarations_append, styleRow]
    refine ⟨?_, ?_, hdrop⟩
    · rw [mergeStyle_of_terminated hterminated (Merging.terminated_result _), hrow]
      exact hdrop [] _
    · rw [mergeStyle_of_terminated (Merging.terminated_result _) hterminated, hrow]
      exact (hdrop _ []).trans (by rw [List.append_nil])
  · rw [hrow]
    exact (styleRow_cases _).imp id IsDeclared.getLast?_eq

/-- Blanks and semicolons at the ends of values, and one that is all blanks. -/
theorem result_merge_padded :
    (Merging.merge (.merge (.value " color: red ;".toList) (.value "\t ".toList))
        (.merge (.value "margin: 0; padding: 0".toList) (.value ";".toList))).result
        = "color: red ; margin: 0; padding: 0; ;".toList
      ∧ mergeStyle " ".toList (mergeStyle "color: red".toList "margin: 0".toList)
        = "color: red; margin: 0;".toList :=
  ⟨(result_merge _ _).1.trans (by decide +kernel),
    ((result_merge (.value "color: red".toList) (.value "margin: 0".toList)).2.2.1 " ".toList rfl).1.trans
      (by decide +kernel)⟩

end Haml.Attribute
