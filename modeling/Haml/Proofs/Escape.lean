import Haml.Rendering
import Haml.Proofs.Text
import Mathlib.Data.List.Infix
import Mathlib.Data.List.TakeWhile
import Mathlib.Tactic.Common

/-!
# Escapes and the code they meet

Escapes are resolved over whole texts, so also inside of markers. A rewriting keeps code as it is
exactly if the code holds nothing that it rewrites.
-/

namespace Haml

/-! ## Pieces of running text -/

namespace Interpolation

/-- A piece as it stands in the text. -/
def Segment.read : Segment → Text
  | .char c => [c]
  | .escaped code => '\\' :: '#' :: '{' :: (code ++ ['}'])
  | .marker code => '#' :: '{' :: (code ++ ['}'])

theorem append_of_marker? {s code rest : Text} (h : marker? s = some (code, rest)) :
    '#' :: '{' :: (code ++ '}' :: rest) = s := by
  unfold marker? at h
  split at h
  · rename_i cs
    split at h
    · cases h
    · rename_i d ds hd
      obtain ⟨_, h⟩ := Option.ite_none_left_eq_some.mp h
      obtain ⟨rfl, rfl⟩ := Prod.mk.inj (Option.some.inj h)
      have hclose : d = '}' := by
        have := List.head?_dropWhile_not (fun c => decide (c ≠ '}')) cs
        rw [hd] at this
        simpa using this
      rw [hclose] at hd
      rw [← hd, List.takeWhile_append_dropWhile]
  · cases h

theorem read_append_of_opening? {s rest : Text} {segment : Segment}
    (h : opening? s = some (segment, rest)) : segment.read ++ rest = s := by
  unfold opening? at h
  split at h
  · obtain ⟨⟨code, rest'⟩, hmarker, heq⟩ := Option.map_eq_some_iff.mp h
    cases heq
    simp [Segment.read, ← append_of_marker? hmarker]
  · obtain ⟨⟨code, rest'⟩, hmarker, heq⟩ := Option.map_eq_some_iff.mp h
    cases heq
    simp [Segment.read, ← append_of_marker? hmarker]

theorem segments_of_opening? {segment : Segment} {c : Char} {cs rest : Text}
    (h : opening? (c :: cs) = some (segment, rest)) : segments (c :: cs) = segment :: segments rest := by
  rw [segments]
  split
  · rename_i heq
    rw [h] at heq
    cases heq
    rfl
  · rename_i heq
    rw [h] at heq
    cases heq

theorem segments_of_opening?_eq_none {c : Char} {cs : Text} (h : opening? (c :: cs) = none) :
    segments (c :: cs) = .char c :: segments cs := by
  rw [segments]
  split
  · rename_i heq
    rw [h] at heq
    cases heq
  · rfl

/-- The pieces of a text are the text. -/
theorem flatMap_read_segments (s : Text) : (segments s).flatMap Segment.read = s := by
  induction s using segments.induct with
  | case1 => rw [segments]; rfl
  | case2 c cs segment rest hopening ih =>
      rw [segments_of_opening? hopening, List.flatMap_cons, ih, read_append_of_opening? hopening]
  | case3 c cs hopening ih =>
      rw [segments_of_opening?_eq_none hopening, List.flatMap_cons, ih]
      rfl

variable {s code : Text} {before after : List Segment}

theorem eq_append_of_segments (h : segments s = before ++ .marker code :: after) :
    s = before.flatMap Segment.read
      ++ '#' :: '{' :: (code ++ '}' :: after.flatMap Segment.read) := by
  rw [← flatMap_read_segments s, h]
  simp [Segment.read]

theorem infix_of_segments (h : segments s = before ++ .marker code :: after) : code <:+: s := by
  rw [eq_append_of_segments h]
  exact ⟨before.flatMap Segment.read ++ ['#', '{'], '}' :: after.flatMap Segment.read, by simp⟩

theorem expand_of_segments (h : segments s = before ++ .marker code :: after) :
    expand s = before.flatMap Segment.write ++ (Erb.output code ++ after.flatMap Segment.write) := by
  rw [expand, h, List.flatMap_append, List.flatMap_cons]
  rfl

/-! ## Texts put together -/

/-- No marker is left open at the end of a text: behind each of its openings stands a closing brace. -/
def IsClosed (s : Text) : Prop := ∀ tail ∈ s.tails, ['#', '{'] <+: tail → '}' ∈ tail

instance (s : Text) : Decidable (IsClosed s) :=
  inferInstanceAs (Decidable (∀ tail ∈ s.tails, ['#', '{'] <+: tail → '}' ∈ tail))

theorem IsClosed.of_suffix {tail : Text} (h : IsClosed s) (htail : tail <:+ s) : IsClosed tail :=
  fun inner hinner => h inner ((List.mem_tails _ _).mpr (((List.mem_tails _ _).mp hinner).trans htail))

theorem marker?_eq_none (h : ¬ ['#', '{'] <+: s) : marker? s = none := by
  unfold marker?
  split
  · rename_i cs
    exact absurd ⟨cs, rfl⟩ h
  · rfl

theorem marker?_of_notMem {code : Text} (h : '}' ∉ code) (rest : Text) :
    marker? ('#' :: '{' :: (code ++ '}' :: rest)) = if code = [] then none else some (code, rest) := by
  have hcode : ∀ c ∈ code, decide (c ≠ '}') = true :=
    fun c hc => decide_eq_true fun heq => h (heq ▸ hc)
  have htake := takeWhile_append_cons (p := (· ≠ '}')) (a := '}') (by decide) code rest
  have hdrop := dropWhile_append_cons (p := (· ≠ '}')) (a := '}') (by decide) code rest
  rw [List.takeWhile_eq_self_iff.mpr hcode] at htake
  rw [List.dropWhile_eq_nil_iff.mpr hcode] at hdrop
  rw [marker?, htake, hdrop]
  rfl

/-- The marker that a closed text starts with is not changed by what stands behind the text. -/
theorem marker?_append (h : IsClosed s) (more : Text) :
    marker? (s ++ ' ' :: more) = (marker? s).map (Prod.map id (· ++ ' ' :: more)) := by
  by_cases hopen : ['#', '{'] <+: s
  · obtain ⟨cs, rfl⟩ := hopen
    have hclose : '}' ∈ cs := by
      simpa using h _ ((List.mem_tails _ _).mpr List.suffix_rfl) (List.prefix_append _ cs)
    obtain ⟨code, rest, rfl, hcode⟩ := List.eq_append_cons_of_mem hclose
    have hmore := marker?_of_notMem hcode (rest ++ ' ' :: more)
    simp only [List.cons_append, List.nil_append, List.append_assoc, hmore, marker?_of_notMem hcode rest]
    split <;> rfl
  · have hnot : ¬ ['#', '{'] <+: s ++ ' ' :: more := by
      rintro ⟨rest, heq⟩
      match s, heq with
      | [], heq => cases heq
      | [c], heq => cases heq
      | c :: d :: cs, heq =>
          cases heq
          exact hopen ⟨cs, rfl⟩
    rw [marker?_eq_none hopen, marker?_eq_none hnot]
    rfl

theorem opening?_of_ne {c : Char} (h : c ≠ '\\') (cs : Text) :
    opening? (c :: cs) = (marker? (c :: cs)).map (Prod.map .marker id) := by
  unfold opening?
  split
  · rename_i heq
    exact absurd (List.cons.inj heq).1 h
  · rfl

theorem opening?_append (h : IsClosed s) (more : Text) :
    opening? (s ++ ' ' :: more) = (opening? s).map (Prod.map id (· ++ ' ' :: more)) := by
  match s, h with
  | [], _ => rfl
  | c :: cs, h =>
      by_cases hc : c = '\\'
      · subst hc
        simp only [List.cons_append, opening?, marker?_append (h.of_suffix (List.suffix_cons _ cs)),
          Option.map_map]
        rfl
      · have happend := marker?_append h more
        rw [List.cons_append] at happend ⊢
        rw [opening?_of_ne hc, opening?_of_ne hc, happend, Option.map_map, Option.map_map]
        rfl

/-- Behind a closed text and a blank, the pieces are those of what stands there. -/
theorem segments_append (h : IsClosed s) (more : Text) :
    segments (s ++ ' ' :: more) = segments s ++ .char ' ' :: segments more := by
  induction s using segments.induct with
  | case1 => rw [List.nil_append, segments_of_opening?_eq_none rfl, segments.eq_1, List.nil_append]
  | case2 c cs segment rest hopening ih =>
      have happend := opening?_append h more
      rw [hopening] at happend
      have hrest : rest <:+ c :: cs := ⟨segment.read, read_append_of_opening? hopening⟩
      rw [List.cons_append, Option.map_some] at happend
      rw [List.cons_append, segments_of_opening? happend, segments_of_opening? hopening]
      exact congrArg (segment :: ·) (ih (h.of_suffix hrest))
  | case3 c cs hopening ih =>
      have happend := opening?_append h more
      rw [hopening, List.cons_append, Option.map_none] at happend
      rw [List.cons_append, segments_of_opening?_eq_none happend, segments_of_opening?_eq_none hopening,
        ih (h.of_suffix (List.suffix_cons c cs)), List.cons_append]

theorem expand_append (h : IsClosed s) (more : Text) :
    expand (s ++ ' ' :: more) = expand s ++ ' ' :: expand more := by
  rw [expand, segments_append h, List.flatMap_append, List.flatMap_cons]
  rfl

/-- Closed texts with blanks between them are expanded one by one. -/
theorem expand_join {parts : List Text} (h : ∀ part ∈ parts, IsClosed part) :
    expand (Text.join [' '] parts) = Text.join [' '] (parts.map expand) := by
  induction parts with
  | nil => simp [Text.join, expand, segments]
  | cons first rest ih =>
      obtain ⟨hfirst, hrest⟩ := List.forall_mem_cons.mp h
      cases rest with
      | nil => simp [Text.join]
      | cons second more =>
          simp only [List.map_cons] at ih ⊢
          rw [Text.join_cons_cons, List.singleton_append, expand_append hfirst, ih hrest,
            Text.join_cons_cons, List.singleton_append]

end Interpolation

/-! ## Hyphens -/

namespace Rendering

theorem unescapeHyphens_cons {c : Char} {s : Text} (h : c ≠ '\\' ∨ s.head? ≠ some '-') :
    unescapeHyphens (c :: s) = c :: unescapeHyphens s := by
  rw [unescapeHyphens]
  rintro cs rfl rfl
  simp at h

/-- A text can be cut before any character but a hyphen. -/
theorem unescapeHyphens_append {c : Char} (hc : c ≠ '-') (s t : Text) :
    unescapeHyphens (s ++ c :: t) = unescapeHyphens s ++ unescapeHyphens (c :: t) := by
  fun_induction unescapeHyphens s with
  | case1 cs ih => simp [unescapeHyphens, ih]
  | case2 d cs hd ih =>
      have hcut : d ≠ '\\' ∨ (cs ++ c :: t).head? ≠ some '-' := by
        by_cases h : d = '\\'
        · right
          cases cs with
          | nil => simpa using hc
          | cons e es => simpa using fun he => hd es h (by rw [he])
        · exact .inl h
      rw [List.cons_append, unescapeHyphens_cons hcut, ih, List.cons_append]
  | case3 => rfl

theorem unescapeHyphens_eq_self_iff (s : Text) :
    unescapeHyphens s = s ↔ ¬ ['\\', '-'] <:+: s := by
  fun_induction unescapeHyphens s with
  | case1 cs ih =>
      refine iff_of_false (fun h => by cases h) (fun h => h ⟨[], cs, rfl⟩)
  | case2 c cs hc ih =>
      have hstarts : ¬ ['\\', '-'] <+: c :: cs := by
        rintro ⟨rest, hrest⟩
        cases hrest
        exact hc rest rfl rfl
      rw [List.cons.injEq, List.infix_cons_iff, ih]
      simp [hstarts]
  | case3 => simp

theorem output_infix_ofRunningText {s code : Text} {before after : List Interpolation.Segment}
    (h : Interpolation.segments s = before ++ .marker code :: after) :
    Erb.output (unescapeHyphens code) <:+: unescapeHyphens (Interpolation.expand s) := by
  have hcode : ∀ rest, unescapeHyphens (Erb.output code ++ rest)
      = Erb.output (unescapeHyphens code) ++ unescapeHyphens rest := by
    intro rest
    have hblank : (' ' : Char) ≠ '-' := by decide
    have happend := unescapeHyphens_append hblank code ('%' :: '>' :: rest)
    rw [Erb.output, Erb.output, List.append_assoc, List.append_assoc, List.append_assoc,
      List.append_assoc]
    exact congrArg ("<%= ".toList ++ ·) happend
  obtain ⟨tail, htail⟩ : ∃ tail, Erb.output code = '<' :: tail := ⟨_, rfl⟩
  rw [Interpolation.expand_of_segments h]
  have hcut := unescapeHyphens_append (c := '<') (by decide) (before.flatMap Interpolation.Segment.write)
    (tail ++ after.flatMap Interpolation.Segment.write)
  rw [← List.cons_append, ← htail, hcode] at hcut
  rw [hcut]
  exact ⟨_, _, List.append_assoc _ _ _⟩

end Rendering

/-! ## Quotes -/

namespace Entry

theorem escapeQuotes_append (s t : Text) :
    escapeQuotes (s ++ t) = escapeQuotes s ++ escapeQuotes t := List.flatMap_append

theorem escapeQuotes_quote (s : Text) :
    escapeQuotes ('"' :: s) = '&' :: ("quot;".toList ++ escapeQuotes s) := rfl

theorem escapeQuotes_cons {c : Char} (h : c ≠ '"') (s : Text) :
    escapeQuotes (c :: s) = c :: escapeQuotes s := by
  rw [escapeQuotes, List.flatMap_cons, if_neg h]
  rfl

theorem escapeQuotes_output (code : Text) :
    escapeQuotes (Erb.output code) = Erb.output (escapeQuotes code) := by
  rw [Erb.output, escapeQuotes_append, escapeQuotes_append]
  rfl

end Entry

/-! ## String literals -/

namespace Attribute

open Entry Interpolation

/--
Whether code in a string literal holds a character that is rewritten there: a double quote, or a
backslash before a quote or a backslash.
-/
def HasEscape (code : Text) : Prop :=
  '"' ∈ code ∨ ∃ c, isHidden c = true ∧ ['\\', c] <:+: code

theorem not_hasEscape_cons_iff {c : Char} {s : Text} (hc : c ≠ '"')
    (hpair : ∀ d, isHidden d = true → ¬ ['\\', d] <+: c :: s) :
    ¬ HasEscape (c :: s) ↔ ¬ HasEscape s := by
  have hpairs : (∃ d, isHidden d = true ∧ ['\\', d] <:+: c :: s)
      ↔ ∃ d, isHidden d = true ∧ ['\\', d] <:+: s := by
    constructor
    · rintro ⟨d, hd, h⟩
      exact ⟨d, hd, (List.infix_cons_iff.mp h).resolve_left (hpair d hd)⟩
    · rintro ⟨d, hd, h⟩
      exact ⟨d, hd, List.infix_cons_iff.mpr (.inr h)⟩
  rw [HasEscape, HasEscape, hpairs]
  simp [Ne.symm hc]

/-- What is left of a literal does not gain the backslashes that it has lost. -/
theorem escapeQuotes_unescape_ne (s : Text) (n : Nat) :
    escapeQuotes (unescape s) ≠ List.replicate (n + 1) '\\' ++ s := by
  fun_induction unescape s generalizing n with
  | case1 c cs hc ih =>
      intro h
      by_cases hquote : c = '"'
      · rw [hquote, escapeQuotes_quote] at h
        cases h
      · rw [escapeQuotes_cons hquote, List.replicate_succ, List.cons_append, List.cons.injEq] at h
        obtain ⟨rfl, h⟩ := h
        refine ih (n + 1) ?_
        rw [h, List.replicate_succ', List.replicate_succ', List.append_assoc, List.append_assoc]
        rfl
  | case2 c cs hc ih =>
      intro h
      have hquote : c ≠ '"' := fun heq => hc (by rw [heq]; rfl)
      have hslash : c ≠ '\\' := fun heq => hc (by rw [heq]; rfl)
      rw [escapeQuotes_cons (by decide), escapeQuotes_cons hquote, List.replicate_succ,
        List.cons_append, List.cons.injEq] at h
      cases n with
      | zero => exact hslash (List.cons.inj h.2).1
      | succ n => exact hslash (List.cons.inj h.2).1
  | case3 c cs hc ih =>
      intro h
      by_cases hquote : c = '"'
      · rw [hquote, escapeQuotes_quote] at h
        cases h
      · rw [escapeQuotes_cons hquote, List.replicate_succ, List.cons_append, List.cons.injEq] at h
        obtain ⟨rfl, h⟩ := h
        cases cs with
        | nil =>
            have hnil : [] = List.replicate n '\\' ++ ['\\'] := h
            simp at hnil
        | cons d ds => exact hc d ds rfl rfl
  | case4 => exact fun h => List.cons_ne_nil _ _ h.symm

theorem escapeQuotes_unescape_eq_self_iff (s : Text) :
    escapeQuotes (unescape s) = s ↔ ¬ HasEscape s := by
  fun_induction unescape s with
  | case1 c cs hc ih =>
      refine iff_of_false (fun h => ?_) (fun h => h (.inr ⟨c, hc, [], cs, rfl⟩))
      by_cases hquote : c = '"'
      · rw [hquote, escapeQuotes_quote] at h
        cases h
      · rw [escapeQuotes_cons hquote, List.cons.injEq] at h
        obtain ⟨rfl, h⟩ := h
        exact escapeQuotes_unescape_ne cs 0 h
  | case2 c cs hc ih =>
      have hquote : c ≠ '"' := fun heq => hc (by rw [heq]; rfl)
      have hslash : c ≠ '\\' := fun heq => hc (by rw [heq]; rfl)
      have hinner : ¬ HasEscape (c :: cs) ↔ ¬ HasEscape cs := by
        refine not_hasEscape_cons_iff hquote fun d _ h => hslash ?_
        obtain ⟨rest, hrest⟩ := h
        exact (List.cons.inj hrest).1.symm
      have houter : ¬ HasEscape ('\\' :: c :: cs) ↔ ¬ HasEscape (c :: cs) := by
        refine not_hasEscape_cons_iff (by decide) fun d hd h => hc ?_
        obtain ⟨rest, hrest⟩ := h
        cases hrest
        exact hd
      rw [houter, hinner, ← ih, escapeQuotes_cons (by decide), escapeQuotes_cons hquote]
      simp
  | case3 c cs hc ih =>
      by_cases hquote : c = '"'
      · refine iff_of_false (fun h => ?_) (fun h => h (.inl (by rw [hquote]; exact List.mem_cons_self)))
        rw [hquote, escapeQuotes_quote] at h
        cases h
      · have hcons : ¬ HasEscape (c :: cs) ↔ ¬ HasEscape cs := by
          refine not_hasEscape_cons_iff hquote fun d _ h => ?_
          obtain ⟨rest, hrest⟩ := h
          cases hrest
          exact hc d rest rfl rfl
        rw [hcons, ← ih, escapeQuotes_cons hquote]
        simp
  | case4 => exact iff_of_true rfl (by simp [HasEscape])

/-! ## Markers in string literals -/

theorem unescape_cons {c : Char} {s : Text} (h : c = '\\' → s = []) :
    unescape (c :: s) = c :: unescape s := by
  rw [unescape]
  rintro d cs rfl rfl
  cases h rfl

/-- A character that no backslash hides comes from the same character of the literal. -/
theorem eq_append_of_unescape {c : Char} (hc : isHidden c = false) (hslash : c ≠ '\\')
    {s front back : Text} (h : unescape s = front ++ c :: back) :
    ∃ before after, s = before ++ c :: after ∧ unescape before = front ∧ unescape after = back := by
  fun_induction unescape s generalizing front with
  | case1 d cs hd ih =>
      cases front with
      | nil =>
          obtain ⟨rfl, _⟩ := List.cons.inj h
          rw [hd] at hc
          cases hc
      | cons e es =>
          obtain ⟨rfl, hrest⟩ := List.cons.inj h
          obtain ⟨before, after, rfl, rfl, rfl⟩ := ih hrest
          exact ⟨'\\' :: d :: before, after, rfl, by simp [unescape, hd], rfl⟩
  | case2 d cs hd ih =>
      cases front with
      | nil => exact absurd (List.cons.inj h).1.symm hslash
      | cons e es =>
          obtain ⟨heq, hrest⟩ := List.cons.inj h
          subst heq
          cases es with
          | nil =>
              obtain ⟨rfl, rfl⟩ := List.cons.inj hrest
              exact ⟨['\\'], cs, rfl, rfl, rfl⟩
          | cons e es =>
              obtain ⟨rfl, hmore⟩ := List.cons.inj hrest
              obtain ⟨before, after, rfl, rfl, rfl⟩ := ih hmore
              exact ⟨'\\' :: d :: before, after, rfl, by simp [unescape, hd], rfl⟩
  | case3 d cs hd ih =>
      cases front with
      | nil =>
          obtain ⟨rfl, rfl⟩ := List.cons.inj h
          exact ⟨[], cs, rfl, rfl, rfl⟩
      | cons e es =>
          obtain ⟨rfl, hrest⟩ := List.cons.inj h
          obtain ⟨before, after, rfl, rfl, rfl⟩ := ih hrest
          refine ⟨d :: before, after, rfl, ?_, rfl⟩
          refine unescape_cons fun heq => ?_
          cases before with
          | nil => rfl
          | cons b bs => cases hd b (bs ++ c :: after) heq rfl
  | case4 => cases front <;> cases h

theorem eq_nil_of_unescape {s : Text} (h : unescape s = []) : s = [] := by
  fun_cases unescape s with
  | case1 c cs hc => simp [unescape, hc] at h
  | case2 c cs hc => simp [unescape, hc] at h
  | case3 c cs hc => rw [unescape.eq_2 _ _ hc] at h; cases h
  | case4 => rfl

/-- `source` is the code of a marker of a double-quoted literal, as it stands in the literal's body. -/
def IsMarkerOf (body source : Text) : Prop :=
  ∃ front back before after, body = front ++ '#' :: '{' :: (source ++ '}' :: back)
    ∧ unescape front = before.flatMap Segment.read
    ∧ segments (unescape body) = before ++ .marker (unescape source) :: after

theorem IsMarkerOf.infix_body {body source : Text} (h : IsMarkerOf body source) :
    source <:+: body := by
  obtain ⟨front, back, _, _, rfl, _⟩ := h
  exact ⟨front ++ ['#', '{'], '}' :: back, by simp⟩

/-- Every marker of a double-quoted literal stands somewhere in its body. -/
theorem exists_isMarkerOf {body code : Text} {before after : List Segment}
    (h : segments (unescape body) = before ++ .marker code :: after) :
    ∃ source, IsMarkerOf body source ∧ unescape source = code := by
  have hunescape := eq_append_of_segments h
  obtain ⟨front, s, rfl, hfront, hs⟩ := eq_append_of_unescape (c := '#') rfl (by decide) hunescape
  have hopen : unescape s = [] ++ '{' :: (code ++ '}' :: after.flatMap Segment.read) := hs
  obtain ⟨none, t, rfl, hnone, ht⟩ := eq_append_of_unescape (c := '{') rfl (by decide) hopen
  obtain ⟨source, back, rfl, hsource, _⟩ := eq_append_of_unescape (c := '}') rfl (by decide) ht
  obtain rfl := eq_nil_of_unescape hnone
  exact ⟨source, ⟨front, back, before, after, rfl, hfront, hsource ▸ h⟩, hsource⟩

/-- The tag that a marker of a double-quoted literal becomes in the literal's entry. -/
theorem output_infix_of_isMarkerOf {body source : Text} (h : IsMarkerOf body source) :
    Erb.output (escapeQuotes (unescape source))
      <:+: escapeQuotes (expand (unescape body)) := by
  obtain ⟨_, _, before, after, _, _, hsegments⟩ := h
  rw [expand_of_segments hsegments, escapeQuotes_append, escapeQuotes_append, escapeQuotes_output]
  exact ⟨_, _, List.append_assoc _ _ _⟩

end Attribute

end Haml
