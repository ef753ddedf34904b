import Haml.Proofs.Enclosed

/-!
# Markers in running text

A text can be expanded piece by piece: a part without openings stays as it is, and a marker becomes its tag.
The code of a marker is taken to end at the first closing brace behind it. Main statement: a marker whose
code has balanced braces becomes the tag of that code exactly if the code holds no closing brace.
-/

namespace Haml.Interpolation

variable {before code rest s : Text} {c : Char}

/-! ## Texts piece by piece -/

theorem expand_nil : expand [] = [] := by
  rw [expand, segments]
  rfl

theorem expand_of_opening? {segment : Segment} (h : opening? s = some (segment, rest)) :
    expand s = segment.write ++ expand rest := by
  cases s with
  | nil => cases h
  | cons c cs => rw [expand, segments_of_opening? h, List.flatMap_cons, expand]

theorem expand_cons (h : opening? (c :: s) = none) : expand (c :: s) = c :: expand s := by
  rw [expand, segments_of_opening?_eq_none h, List.flatMap_cons, expand]
  rfl

/-- A marker starts at the start of a text only if its opening does, whatever stands behind the text. -/
theorem marker?_append_of_plain (hne : s ≠ []) (h : ¬ ['#', '{'] <+: s)
    (hseam : s.getLast? = some '#' → rest.head? ≠ some '{') : marker? (s ++ rest) = none := by
  refine marker?_eq_none ?_
  rintro ⟨tail, heq⟩
  match s, hne, heq with
  | [c], _, heq =>
      obtain ⟨rfl, rfl⟩ := List.cons.inj heq
      exact hseam rfl rfl
  | c :: d :: cs, _, heq =>
      obtain ⟨rfl, htail⟩ := List.cons.inj heq
      obtain ⟨rfl, _⟩ := List.cons.inj htail
      exact h ⟨cs, rfl⟩

/-- A text without openings stays as it is, if none comes about where the next text starts. -/
theorem expand_append_of_plain (h : ¬ ['#', '{'] <:+: before)
    (hopen : before.getLast? = some '#' → rest.head? ≠ some '{')
    (hslash : before.getLast? = some '\\' → marker? rest = none) :
    expand (before ++ rest) = before ++ expand rest := by
  induction before with
  | nil => rfl
  | cons c cs ih =>
      have hlater : ∀ {d : Char}, cs.getLast? = some d → (c :: cs).getLast? = some d := fun hlast => by
        rw [List.getLast?_cons, hlast]
        rfl
      have hcs : ¬ ['#', '{'] <:+: cs := fun hmem => h (hmem.trans (List.suffix_cons c cs).isInfix)
      have hnone : opening? (c :: (cs ++ rest)) = none := by
        by_cases hc : c = '\\'
        · have hmarker : marker? (cs ++ rest) = none := by
            cases cs with
            | nil => exact hslash (by rw [hc]; rfl)
            | cons d ds =>
                exact marker?_append_of_plain (List.cons_ne_nil _ _) (fun hstart => hcs hstart.isInfix)
                  fun hlast => hopen (hlater hlast)
          rw [hc, opening?, hmarker, Option.map_none]
        · have hmarker := marker?_append_of_plain (List.cons_ne_nil c cs) (fun hstart => h hstart.isInfix) hopen
          rw [opening?_of_ne hc, ← List.cons_append, hmarker, Option.map_none]
      rw [List.cons_append, expand_cons hnone,
        ih hcs (fun hlast => hopen (hlater hlast)) fun hlast => hslash (hlater hlast), List.cons_append]

theorem expand_of_plain (h : ¬ ['#', '{'] <:+: s) : expand s = s := by
  have happend : expand (s ++ []) = s ++ expand [] :=
    expand_append_of_plain h (fun _ heq => by cases heq) fun _ => rfl
  rwa [List.append_nil, expand_nil, List.append_nil] at happend

theorem expand_marker (hne : code ≠ []) (hcode : '}' ∉ code) (rest : Text) :
    expand ('#' :: '{' :: (code ++ '}' :: rest)) = Erb.output code ++ expand rest := by
  have hopening : opening? ('#' :: '{' :: (code ++ '}' :: rest)) = some (.marker code, rest) := by
    rw [opening?_of_ne (by decide), marker?_of_notMem hcode, if_neg hne]
    rfl
  exact expand_of_opening? hopening

/-- A marker behind a backslash is kept, and the backslash is dropped. -/
theorem expand_escaped (hne : code ≠ []) (hcode : '}' ∉ code) (rest : Text) :
    expand ('\\' :: '#' :: '{' :: (code ++ '}' :: rest)) = '#' :: '{' :: (code ++ '}' :: expand rest) := by
  have hopening : opening? ('\\' :: '#' :: '{' :: (code ++ '}' :: rest)) = some (.escaped code, rest) := by
    rw [opening?, marker?_of_notMem hcode, if_neg hne]
    rfl
  rw [expand_of_opening? hopening]
  simp [Segment.write]

/-! ## Code with braces -/

/-- Code with balanced braces starts with no closing one. -/
theorem head?_ne_of_isEnclosed (h : Code.IsEnclosed code) : code.head? ≠ some '}' := by
  intro hhead
  obtain ⟨cs, rfl⟩ := List.head?_eq_some_iff.mp hhead
  rw [Code.IsEnclosed, List.cons_append, Code.splitAtClose] at h
  simp [Code.isQuote] at h

/--
Code that starts with no closing brace, as code with balanced braces does, is taken for the code of its
marker exactly if it holds no closing brace at all; else its tag holds it up to the first one, and all that
follows is running text.
-/
theorem expand_marker_iff (hbefore : ¬ ['#', '{'] <:+: before) (hlast : before.getLast? ≠ some '\\')
    (hne : code ≠ []) (hcode : code.head? ≠ some '}') (after : Text) :
    (expand (before ++ '#' :: '{' :: (code ++ '}' :: after))
        = before ++ (Erb.output code ++ expand after) ↔ '}' ∉ code)
      ∧ ∀ front back, code = front ++ '}' :: back → '}' ∉ front →
        expand (before ++ '#' :: '{' :: (code ++ '}' :: after))
          = before ++ (Erb.output front ++ expand (back ++ '}' :: after)) := by
  have hopen : ∀ rest, expand (before ++ '#' :: '{' :: rest) = before ++ expand ('#' :: '{' :: rest) :=
    fun rest => expand_append_of_plain hbefore (fun _ heq => by cases heq) fun heq => absurd heq hlast
  have hcut : ∀ front back, code = front ++ '}' :: back → '}' ∉ front →
      expand (before ++ '#' :: '{' :: (code ++ '}' :: after))
        = before ++ (Erb.output front ++ expand (back ++ '}' :: after)) := by
    rintro front back rfl hfront
    have hfrontne : front ≠ [] := by
      rintro rfl
      exact hcode rfl
    rw [hopen, List.append_assoc, List.cons_append, expand_marker hfrontne hfront]
  refine ⟨⟨fun heq hmem => ?_, fun hnot => ?_⟩, hcut⟩
  · obtain ⟨front, back, hback, hfront⟩ := List.eq_append_cons_of_mem hmem
    rw [hcut front back hback hfront, hback] at heq
    -- Behind `front`, the tag that is written goes on with a blank, and the tag of the code with a brace.
    simp [Erb.output] at heq
  · rw [hopen, expand_marker hne hnot]

/-- Quotes, commas and calls in code are no matter. -/
theorem expand_marker_call :
    expand "Hi #\x7bt('a', \"b\")\x7d!".toList = "Hi <%= t('a', \"b\") %>!".toList := by
  have hplain : ¬ ['#', '{'] <:+: "Hi ".toList := by decide
  have hcode : Code.IsEnclosed "t('a', \"b\")".toList := by decide
  obtain ⟨hiff, _⟩ := expand_marker_iff hplain (by decide) (by decide) (head?_ne_of_isEnclosed hcode) ['!']
  have hrest : expand ['!'] = ['!'] := expand_of_plain (by decide)
  have hexpand := hiff.mpr (by decide)
  rw [hrest] at hexpand
  exact hexpand

/-- The braces of a block end the marker that the block stands in. -/
theorem expand_marker_block :
    Code.IsEnclosed "items.map \x7b |i| i.name \x7d.join".toList
      ∧ expand "#\x7bitems.map \x7b |i| i.name \x7d.join\x7d".toList
        ≠ "<%= items.map \x7b |i| i.name \x7d.join %>".toList := by
  decide +kernel

end Haml.Interpolation
