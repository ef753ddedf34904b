import Haml.Attribute.Merge
import Haml.Erb
import Haml.Proofs.Text
import Mathlib.Data.List.Infix
import Mathlib.Tactic.Common

/-!
# Class values and the tags in them

A class value is cut at the blanks outside of code tags. A tag of the page's code therefore stands
within one token, unless its code ends the tag early: then a blank after the early end cuts it.

Texts that make no delimiter where they meet are read one after the other, the second one from the
standing that the first one ends in; and a blank outside of all tags parts a value into two that are cut
on their own. What is said of tokens here follows from these two facts, by induction from gap to gap.
-/

namespace Haml.Attribute

/-- Whether a blank stands outside of all code tags, read on from inside or outside of one. -/
def hasGap : (inTag : Bool) → Text → Bool
  | _, [] => false
  | false, '<' :: '%' :: cs => hasGap true cs
  | true, '%' :: '>' :: cs => hasGap false cs
  | inTag, c :: cs => !inTag && Text.isAsciiBlank c || hasGap inTag cs

/-- Whether a code tag is open behind a text, read on from inside or outside of one. -/
def endsInTag : (inTag : Bool) → Text → Bool
  | inTag, [] => inTag
  | false, '<' :: '%' :: cs => endsInTag true cs
  | true, '%' :: '>' :: cs => endsInTag false cs
  | inTag, _ :: cs => endsInTag inTag cs

/-- Whether two characters are the delimiter that changes the standing. -/
def isDelimiter : (inTag : Bool) → Char → Char → Bool
  | false, c, d => c = '<' && d = '%'
  | true, c, d => c = '%' && d = '>'

/-! ## One character after the other -/

variable {inTag : Bool} {c d : Char} {s t : Text}

theorem classRuns_delimiter (h : isDelimiter inTag c d = true) (s : Text) :
    classRuns inTag (c :: d :: s) = Text.consHead c (Text.consHead d (classRuns (!inTag) s)) := by
  cases inTag <;>
  · obtain ⟨rfl, rfl⟩ : _ ∧ _ := by simpa [isDelimiter] using h
    rw [classRuns]
    rfl

theorem hasGap_delimiter (h : isDelimiter inTag c d = true) (s : Text) :
    hasGap inTag (c :: d :: s) = hasGap (!inTag) s := by
  cases inTag <;>
  · obtain ⟨rfl, rfl⟩ : _ ∧ _ := by simpa [isDelimiter] using h
    rw [hasGap]
    rfl

theorem endsInTag_delimiter (h : isDelimiter inTag c d = true) (s : Text) :
    endsInTag inTag (c :: d :: s) = endsInTag (!inTag) s := by
  cases inTag <;>
  · obtain ⟨rfl, rfl⟩ : _ ∧ _ := by simpa [isDelimiter] using h
    rw [endsInTag]
    rfl

theorem classRuns_cons (h : ∀ d ∈ s.head?, isDelimiter inTag c d = false) :
    classRuns inTag (c :: s) =
      if !inTag && Text.isAsciiBlank c then [] :: classRuns inTag s
      else Text.consHead c (classRuns inTag s) := by
  rw [classRuns]
  · rintro cs rfl rfl rfl
    simp [isDelimiter] at h
  · rintro cs rfl rfl rfl
    simp [isDelimiter] at h

theorem hasGap_cons (h : ∀ d ∈ s.head?, isDelimiter inTag c d = false) :
    hasGap inTag (c :: s) = (!inTag && Text.isAsciiBlank c || hasGap inTag s) := by
  rw [hasGap]
  · rintro cs rfl rfl rfl
    simp [isDelimiter] at h
  · rintro cs rfl rfl rfl
    simp [isDelimiter] at h

theorem endsInTag_cons (h : ∀ d ∈ s.head?, isDelimiter inTag c d = false) :
    endsInTag inTag (c :: s) = endsInTag inTag s := by
  rw [endsInTag]
  · rintro cs rfl rfl rfl
    simp [isDelimiter] at h
  · rintro cs rfl rfl rfl
    simp [isDelimiter] at h

/-- Induction on a text as it is read: by delimiters where there are any, and by characters else. -/
theorem readInduction {motive : Bool → Text → Prop} (nil : ∀ inTag, motive inTag [])
    (delimiter : ∀ inTag c d s, isDelimiter inTag c d = true → motive (!inTag) s →
      motive inTag (c :: d :: s))
    (char : ∀ inTag c s, (∀ d ∈ s.head?, isDelimiter inTag c d = false) → motive inTag s →
      motive inTag (c :: s)) (inTag : Bool) (s : Text) : motive inTag s := by
  fun_induction hasGap inTag s with
  | case1 inTag => exact nil inTag
  | case2 cs ih => exact delimiter false '<' '%' cs rfl ih
  | case3 cs ih => exact delimiter true '%' '>' cs rfl ih
  | case4 inTag c cs hopen hclose ih =>
      refine char inTag c cs (fun d hd => ?_) ih
      obtain ⟨ds, rfl⟩ := List.head?_eq_some_iff.mp hd
      cases inTag with
      | false =>
          simp only [isDelimiter, Bool.and_eq_false_iff, decide_eq_false_iff_not]
          by_cases hc : c = '<'
          · exact .inr fun hd => hopen ds rfl hc (by rw [hd])
          · exact .inl hc
      | true =>
          simp only [isDelimiter, Bool.and_eq_false_iff, decide_eq_false_iff_not]
          by_cases hc : c = '%'
          · exact .inr fun hd => hclose ds rfl hc (by rw [hd])
          · exact .inl hc

/-! ## Runs -/

/-- The runs of a text are parts of it without a gap. -/
theorem classRuns_spec (inTag : Bool) (s : Text) :
    ∃ head tail, classRuns inTag s = head :: tail ∧ head <+: s ∧ hasGap inTag head = false
      ∧ ∀ run ∈ tail, run <:+: s ∧ hasGap false run = false := by
  induction inTag, s using readInduction with
  | nil inTag => exact ⟨[], [], rfl, List.prefix_rfl, rfl, fun _ h => by cases h⟩
  | delimiter inTag c d s h ih =>
      obtain ⟨head, tail, hruns, hstarts, hgap, htail⟩ := ih
      refine ⟨c :: d :: head, tail, by rw [classRuns_delimiter h, hruns]; rfl, ?_, ?_, ?_⟩
      · simpa using hstarts
      · rwa [hasGap_delimiter h]
      · exact fun run hrun => ⟨(htail run hrun).1.trans (List.suffix_append [c, d] s).isInfix,
          (htail run hrun).2⟩
  | char inTag c s h ih =>
      obtain ⟨head, tail, hruns, hstarts, hgap, htail⟩ := ih
      have hcons : s <:+: c :: s := (List.suffix_cons c s).isInfix
      rw [classRuns_cons h, hruns]
      split
      · rename_i hblank
        obtain ⟨hout, _⟩ := Bool.and_eq_true_iff.mp hblank
        obtain rfl : inTag = false := by simpa using hout
        refine ⟨[], head :: tail, rfl, List.nil_prefix, rfl, fun run hrun => ?_⟩
        rcases List.mem_cons.mp hrun with rfl | hrun
        · exact ⟨hstarts.isInfix.trans hcons, hgap⟩
        · exact ⟨(htail run hrun).1.trans hcons, (htail run hrun).2⟩
      · rename_i hblank
        refine ⟨c :: head, tail, rfl, by simpa using hstarts, ?_, fun run hrun =>
          ⟨(htail run hrun).1.trans hcons, (htail run hrun).2⟩⟩
        have hhead : ∀ d ∈ head.head?, isDelimiter inTag c d = false := by
          intro d hd
          obtain ⟨ds, rfl⟩ := List.head?_eq_some_iff.mp hd
          obtain ⟨rest, rfl⟩ := hstarts
          exact h d (by simp)
        rw [hasGap_cons hhead, hgap]
        simpa using hblank

theorem classRuns_ne_nil (inTag : Bool) (s : Text) : classRuns inTag s ≠ [] := by
  obtain ⟨head, tail, hruns, _⟩ := classRuns_spec inTag s
  exact hruns ▸ List.cons_ne_nil head tail

theorem infix_of_mem_classTokens {token value : Text} (h : token ∈ classTokens value) :
    token <:+: value ∧ hasGap false token = false := by
  obtain ⟨head, tail, hruns, hstarts, hgap, htail⟩ := classRuns_spec false value
  rw [classTokens, hruns] at h
  rcases List.mem_cons.mp (List.mem_of_mem_filter h) with rfl | h
  · exact ⟨hstarts.isInfix, hgap⟩
  · exact htail token h

/-! ## Parts -/

/-- Whether no delimiter is made of the end of one text and the start of the next. -/
def Apart (s t : Text) : Prop :=
  ∀ c ∈ s.getLast?, ∀ d ∈ t.head?, ∀ inTag, isDelimiter inTag c d = false

namespace Apart

theorem of_head? (ht : ∀ d ∈ t.head?, d ≠ '%' ∧ d ≠ '>') : Apart s t := by
  intro c _ d hd inTag
  obtain ⟨hpercent, hgreater⟩ := ht d hd
  cases inTag <;> simp [isDelimiter, hpercent, hgreater]

theorem of_getLast? (hs : ∀ c ∈ s.getLast?, c ≠ '<' ∧ c ≠ '%') : Apart s t := by
  intro c hc d _ inTag
  obtain ⟨hless, hpercent⟩ := hs c hc
  cases inTag <;> simp [isDelimiter, hless, hpercent]

theorem mono (h : Apart s t) {s' t' : Text} (hs : s' <:+ s) (ht : t' <+: t) : Apart s' t' := by
  obtain ⟨before, rfl⟩ := hs
  obtain ⟨after, rfl⟩ := ht
  intro c hc d hd
  refine h c ?_ d ?_
  · simp [Option.mem_def.mp hc]
  · simp [Option.mem_def.mp hd]

theorem of_cons (h : Apart (c :: s) t) : Apart s t := h.mono (List.suffix_cons c s) List.prefix_rfl

theorem append_left (h : Apart s t) (hne : s ≠ []) (before : Text) : Apart (before ++ s) t := by
  intro c hc
  rw [List.getLast?_append_of_ne_nil _ hne] at hc
  exact h c hc

theorem isDelimiter_append (h : Apart (c :: s) t)
    (hs : ∀ d ∈ s.head?, isDelimiter inTag c d = false) :
    ∀ d ∈ (s ++ t).head?, isDelimiter inTag c d = false := by
  intro d hd
  cases s with
  | nil => exact h c rfl d hd inTag
  | cons e es => exact hs d (by simpa using hd)

end Apart

theorem endsInTag_append (inTag : Bool) (h : Apart s t) :
    endsInTag inTag (s ++ t) = endsInTag (endsInTag inTag s) t := by
  induction inTag, s using readInduction with
  | nil inTag => rw [endsInTag, List.nil_append]
  | delimiter inTag c d s hread ih =>
      rw [List.cons_append, List.cons_append, endsInTag_delimiter hread, endsInTag_delimiter hread,
        ih h.of_cons.of_cons]
  | char inTag c s hread ih =>
      rw [List.cons_append, endsInTag_cons (h.isDelimiter_append hread), endsInTag_cons hread,
        ih h.of_cons]

theorem hasGap_append (inTag : Bool) (h : Apart s t) :
    hasGap inTag (s ++ t) = (hasGap inTag s || hasGap (endsInTag inTag s) t) := by
  induction inTag, s using readInduction with
  | nil inTag => rw [endsInTag, hasGap, List.nil_append, Bool.false_or]
  | delimiter inTag c d s hread ih =>
      rw [List.cons_append, List.cons_append, endsInTag_delimiter hread, hasGap_delimiter hread,
        hasGap_delimiter hread, ih h.of_cons.of_cons]
  | char inTag c s hread ih =>
      rw [List.cons_append, endsInTag_cons hread, hasGap_cons hread,
        hasGap_cons (h.isDelimiter_append hread), ih h.of_cons, Bool.or_assoc]

/-! ## Gaps -/

theorem ne_of_isAsciiBlank (h : Text.isAsciiBlank c = true) : c ≠ '<' ∧ c ≠ '%' ∧ c ≠ '>' := by
  refine ⟨?_, ?_, ?_⟩ <;>
  · rintro rfl
    exact absurd h (by decide)

theorem apart_blank (h : Text.isAsciiBlank c = true) (s t : Text) : Apart s (c :: t) := by
  refine Apart.of_head? fun d hd => ?_
  obtain rfl : c = d := by simpa using hd
  exact (ne_of_isAsciiBlank h).2

theorem isDelimiter_blank (h : Text.isAsciiBlank c = true) (s : Text) :
    ∀ d ∈ s.head?, isDelimiter inTag c d = false := by
  obtain ⟨hless, hpercent, _⟩ := ne_of_isAsciiBlank h
  cases inTag <;> simp [isDelimiter, hless, hpercent]

theorem endsInTag_append_blank (hend : endsInTag inTag s = false) (hblank : Text.isAsciiBlank c = true)
    (t : Text) : endsInTag inTag (s ++ c :: t) = endsInTag false t := by
  rw [endsInTag_append inTag (apart_blank hblank s t), hend,
    endsInTag_cons (isDelimiter_blank hblank t)]

/-- A blank outside of all code tags cuts a text into two that are read on their own. -/
theorem classRuns_append_blank (hend : endsInTag inTag s = false)
    (hblank : Text.isAsciiBlank c = true) (t : Text) :
    classRuns inTag (s ++ c :: t) = classRuns inTag s ++ classRuns false t := by
  induction inTag, s using readInduction with
  | nil inTag =>
      obtain rfl : inTag = false := by rwa [endsInTag] at hend
      rw [List.nil_append, classRuns_cons (isDelimiter_blank hblank t), classRuns]
      simp [hblank]
  | delimiter inTag d e s hread ih =>
      rw [endsInTag_delimiter hread] at hend
      rw [List.cons_append, List.cons_append, classRuns_delimiter hread, classRuns_delimiter hread,
        ih hend, Text.consHead_append e (classRuns_ne_nil _ s),
        Text.consHead_append d (Text.consHead_ne_nil e _)]
  | char inTag d s hread ih =>
      rw [endsInTag_cons hread] at hend
      rw [List.cons_append, classRuns_cons hread,
        classRuns_cons ((apart_blank hblank (d :: s) t).isDelimiter_append hread), ih hend]
      split
      · rfl
      · exact Text.consHead_append d (classRuns_ne_nil inTag s) _

theorem classTokens_append_blank (hend : endsInTag false s = false)
    (hblank : Text.isAsciiBlank c = true) (t : Text) :
    classTokens (s ++ c :: t) = classTokens s ++ classTokens t := by
  rw [classTokens, classRuns_append_blank hend hblank, List.filter_append]
  rfl

theorem classRuns_of_gapless (h : hasGap inTag s = false) : classRuns inTag s = [s] := by
  induction inTag, s using readInduction with
  | nil inTag => rw [classRuns]
  | delimiter inTag c d s hread ih =>
      rw [hasGap_delimiter hread] at h
      rw [classRuns_delimiter hread, ih h]
      rfl
  | char inTag c s hread ih =>
      rw [hasGap_cons hread, Bool.or_eq_false_iff] at h
      rw [classRuns_cons hread, ih h.2, h.1]
      rfl

theorem classTokens_of_gapless (h : hasGap false s = false) (hne : s ≠ []) : classTokens s = [s] := by
  rw [classTokens, classRuns_of_gapless h]
  simp [hne]

/-- A text with a gap is cut at the first of its gaps. -/
theorem exists_first_gap (h : hasGap inTag s = true) :
    ∃ head blank rest, s = head ++ blank :: rest ∧ hasGap inTag head = false
      ∧ endsInTag inTag head = false ∧ Text.isAsciiBlank blank = true := by
  induction inTag, s using readInduction with
  | nil inTag => simp [hasGap] at h
  | delimiter inTag c d s hread ih =>
      rw [hasGap_delimiter hread] at h
      obtain ⟨head, blank, rest, rfl, hgap, hend, hblank⟩ := ih h
      refine ⟨c :: d :: head, blank, rest, rfl, ?_, ?_, hblank⟩
      · rwa [hasGap_delimiter hread]
      · rwa [endsInTag_delimiter hread]
  | char inTag c s hread ih =>
      cases hcut : !inTag && Text.isAsciiBlank c with
      | true =>
          obtain ⟨hout, hblank⟩ := Bool.and_eq_true_iff.mp hcut
          obtain rfl : inTag = false := by simpa using hout
          exact ⟨[], c, s, rfl, by rw [hasGap], by rw [endsInTag], hblank⟩
      | false =>
          rw [hasGap_cons hread, hcut, Bool.false_or] at h
          obtain ⟨head, blank, rest, rfl, hgap, hend, hblank⟩ := ih h
          have hhead : ∀ d ∈ head.head?, isDelimiter inTag c d = false := by
            intro d hd
            obtain ⟨ds, rfl⟩ := List.head?_eq_some_iff.mp hd
            exact hread d rfl
          refine ⟨c :: head, blank, rest, rfl, ?_, ?_, hblank⟩
          · rw [hasGap_cons hhead, hcut, hgap, Bool.false_or]
          · rwa [endsInTag_cons hhead]

/-- Induction on a text from gap to gap. -/
theorem gapInduction {motive : Text → Prop} (gapless : ∀ s, hasGap false s = false → motive s)
    (gap : ∀ head blank rest, hasGap false head = false → endsInTag false head = false →
      Text.isAsciiBlank blank = true → motive rest → motive (head ++ blank :: rest)) (s : Text) :
    motive s := by
  cases hgap : hasGap false s with
  | false => exact gapless s hgap
  | true =>
      obtain ⟨head, blank, rest, heq, hhead, hend, hblank⟩ := exists_first_gap hgap
      have : rest.length < s.length := by simp [heq]; omega
      exact heq ▸ gap head blank rest hhead hend hblank (gapInduction gapless gap rest)
termination_by s.length

/--
A part without a gap stands within one token, together with what is around it up to the next blanks
outside of all code tags.
-/
theorem exists_token_of_gapless {part before after : Text} (hne : part ≠ [])
    (hgap : hasGap (endsInTag false before) part = false) (hbefore : Apart before part)
    (hafter : Apart part after) :
    ∃ head tail, head <:+ before ∧ tail <+: after
      ∧ head ++ part ++ tail ∈ classTokens (before ++ part ++ after) := by
  induction before using gapInduction with
  | gapless before hnone =>
      have hpart : hasGap false (before ++ part) = false := by
        rw [hasGap_append false hbefore, hnone, hgap, Bool.or_false]
      have hseam := hafter.append_left hne before
      -- The token ends at the first gap behind the part, or with the text.
      cases hrest : hasGap (endsInTag false (before ++ part)) after with
      | false =>
          refine ⟨before, after, List.suffix_rfl, List.prefix_rfl, ?_⟩
          rw [classTokens_of_gapless _ (by simp [hne])]
          · exact List.mem_singleton_self _
          · rw [hasGap_append false hseam, hpart, hrest, Bool.or_false]
      | true =>
          obtain ⟨tail, blank, rest, rfl, htail, hend, hblank⟩ := exists_first_gap hrest
          have hstarts : tail <+: tail ++ blank :: rest := List.prefix_append _ _
          have htailSeam := hseam.mono List.suffix_rfl hstarts
          refine ⟨before, tail, List.suffix_rfl, hstarts, ?_⟩
          rw [← List.append_assoc, classTokens_append_blank _ hblank]
          · rw [classTokens_of_gapless _ (by simp [hne])]
            · exact List.mem_append_left _ (List.mem_singleton_self _)
            · rw [hasGap_append false htailSeam, hpart, htail, Bool.or_false]
          · rwa [endsInTag_append false htailSeam]
  | gap first blank rest _ hend hblank ih =>
      -- What is before the first gap is a token of its own, and the part is read as if it were not there.
      rw [endsInTag_append_blank hend hblank] at hgap
      have hends : rest <:+ first ++ blank :: rest :=
        (List.suffix_cons blank rest).trans (List.suffix_append _ _)
      obtain ⟨head, tail, hhead, htail, htoken⟩ := ih hgap (hbefore.mono hends List.prefix_rfl)
      refine ⟨head, tail, hhead.trans hends, htail, ?_⟩
      have hsplit : first ++ blank :: rest ++ part ++ after
          = first ++ blank :: (rest ++ part ++ after) := by simp
      rw [hsplit, classTokens_append_blank hend hblank]
      exact List.mem_append_right _ htoken

/-! ## Tags in class values -/

variable {code value base additional : Text}

/-- A tag of the page is read alike inside and outside of another one. -/
theorem hasGap_output (inTag : Bool) (code : Text) :
    hasGap inTag (Erb.output code) = hasGap true ('=' :: ' ' :: (code ++ " %>".toList)) := by
  have hopen : Erb.output code = '<' :: '%' :: '=' :: ' ' :: (code ++ " %>".toList) := by
    simp [Erb.output]
  rw [hopen]
  cases inTag with
  | false => rw [hasGap_delimiter rfl]; rfl
  | true =>
      rw [hasGap_cons (by simp [isDelimiter]), hasGap_cons (by simp [isDelimiter])]
      rfl

/-- Code without the closing delimiter does not close its tag, unless what is behind it does. -/
theorem isDelimiter_eq_false_within {rest : Text} (h : ¬ ['%', '>'] <:+: c :: s)
    (hrest : '>' ∉ rest.head?) : ∀ d ∈ (s ++ rest).head?, isDelimiter true c d = false := by
  intro d hd
  cases s with
  | nil =>
      have hne : d ≠ '>' := fun heq => hrest (heq ▸ hd)
      simp [isDelimiter, hne]
  | cons e es =>
      obtain rfl : e = d := by simpa using hd
      simp only [isDelimiter, Bool.and_eq_false_iff, decide_eq_false_iff_not]
      by_contra hboth
      simp only [not_or, not_not] at hboth
      obtain ⟨rfl, rfl⟩ := hboth
      exact h ⟨[], es, rfl⟩

section Readers

variable {α : Type} {read : Bool → Text → α} {put : Char → α → α}

/-- The inside of a tag is passed over by every reader that puts one character after the other. -/
theorem read_inside_append
    (hcons : ∀ {c s}, (∀ d ∈ s.head?, isDelimiter true c d = false) →
      read true (c :: s) = put c (read true s))
    {inside rest : Text} (h : ¬ ['%', '>'] <:+: inside) (hrest : '>' ∉ rest.head?) :
    read true (inside ++ rest) = inside.foldr put (read true rest) := by
  induction inside with
  | nil => rfl
  | cons c cs ih =>
      rw [List.cons_append, hcons (isDelimiter_eq_false_within h hrest),
        ih fun hpart => h (hpart.trans (List.suffix_cons c cs).isInfix), List.foldr_cons]

/--
A closed tag is passed over by every reader that puts one character after the other in front of what it
reads behind them: it is read inside of the tag, and then on from outside.
-/
theorem read_output_append
    (hdelimiter : ∀ {inTag c d}, isDelimiter inTag c d = true →
      ∀ s, read inTag (c :: d :: s) = put c (put d (read (!inTag) s)))
    (hcons : ∀ {c s}, (∀ d ∈ s.head?, isDelimiter true c d = false) →
      read true (c :: s) = put c (read true s))
    (h : ¬ ['%', '>'] <:+: code) (rest : Text) :
    read false (Erb.output code ++ rest) = (Erb.output code).foldr put (read false rest) := by
  have hnone : ¬ ['%', '>'] <:+: '=' :: ' ' :: code := by
    simpa [List.infix_cons_iff, List.cons_prefix_cons] using h
  have houtput : Erb.output code ++ rest
      = '<' :: '%' :: (('=' :: ' ' :: code) ++ ' ' :: '%' :: '>' :: rest) := by
    simp [Erb.output]
  rw [houtput, hdelimiter rfl, Bool.not_false, read_inside_append hcons hnone (by simp),
    hcons (by simp [isDelimiter]), hdelimiter rfl]
  simp [Erb.output]

end Readers

theorem hasGap_output_of_not_infix (h : ¬ ['%', '>'] <:+: code) :
    hasGap false (Erb.output code) = false := by
  have hread : hasGap false (Erb.output code ++ [])
      = (Erb.output code).foldr (fun _ gap => gap) (hasGap false []) :=
    read_output_append hasGap_delimiter hasGap_cons h []
  simpa [List.foldr_fixed, hasGap] using hread

theorem apart_output (before code : Text) : Apart before (Erb.output code) := by
  refine Apart.of_head? fun d hd => ?_
  obtain rfl : '<' = d := by simpa [Erb.output] using hd
  decide

theorem getLast?_output (code : Text) : (Erb.output code).getLast? = some '>' := by
  rw [Erb.output, List.getLast?_append_of_ne_nil _ (by decide)]
  rfl

theorem output_apart (code after : Text) : Apart (Erb.output code) after := by
  refine Apart.of_getLast? fun c hc => ?_
  obtain rfl : '>' = c := by simpa [getLast?_output] using hc
  decide

/-- A tag without a gap is part of one token. -/
theorem exists_token_of_infix (hgap : hasGap false (Erb.output code) = false)
    (h : Erb.output code <:+: value) : ∃ token ∈ classTokens value, Erb.output code <:+: token := by
  obtain ⟨before, after, rfl⟩ := h
  rw [hasGap_output] at hgap
  obtain ⟨head, tail, _, _, htoken⟩ := exists_token_of_gapless (by simp [Erb.output])
    (by rw [hasGap_output, hgap]) (apart_output before code) (output_apart code after)
  exact ⟨_, htoken, ⟨head, tail, rfl⟩⟩

theorem hasGap_of_infix_token {token : Text} (htoken : token ∈ classTokens value)
    (h : Erb.output code <:+: token) : hasGap false (Erb.output code) = false := by
  obtain ⟨before, after, rfl⟩ := h
  have hnone := (infix_of_mem_classTokens htoken).2
  rw [hasGap_append false ((output_apart code after).append_left (by simp [Erb.output]) before),
    hasGap_append false (apart_output before code)] at hnone
  simp only [Bool.or_eq_false_iff] at hnone
  rw [hasGap_output] at hnone ⊢
  exact hnone.1.2

theorem distinct_eq_eraseDups (tokens : List Text) : distinct tokens = tokens.eraseDups := by
  induction tokens using List.reverseRecOn with
  | nil => rfl
  | append_singleton tokens token ih =>
      have hmem : (distinct tokens).contains token = tokens.contains token := by
        rw [ih, Bool.eq_iff_iff, List.contains_iff_mem, List.contains_iff_mem, List.mem_eraseDups]
      have hlast : distinct (tokens ++ [token])
          = if (distinct tokens).contains token then distinct tokens
            else distinct tokens ++ [token] := by
        rw [distinct, List.foldl_append]
        rfl
      rw [hlast, hmem, ih, List.eraseDups_append, List.cons_removeAll, List.nil_removeAll]
      cases tokens.contains token <;> simp [List.eraseDups_cons]

theorem mem_distinct {tokens : List Text} {token : Text} :
    token ∈ distinct tokens ↔ token ∈ tokens := by
  rw [distinct_eq_eraseDups, List.mem_eraseDups]

/-- Merging classes keeps every tag without a gap, whichever of the two values it stands in. -/
theorem output_infix_mergeClass (hgap : hasGap false (Erb.output code) = false)
    (h : Erb.output code <:+: base ∨ Erb.output code <:+: additional) :
    Erb.output code <:+: mergeClass base additional := by
  obtain ⟨token, htoken, hpart⟩ :
      ∃ token ∈ classTokens base ++ classTokens additional, Erb.output code <:+: token := by
    rcases h with h | h
    · obtain ⟨token, htoken, hpart⟩ := exists_token_of_infix hgap h
      exact ⟨token, List.mem_append_left _ htoken, hpart⟩
    · obtain ⟨token, htoken, hpart⟩ := exists_token_of_infix hgap h
      exact ⟨token, List.mem_append_right _ htoken, hpart⟩
  exact hpart.trans (Text.infix_join (mem_distinct.mpr htoken) _)

/-! ## Tags in style values -/

theorem output_infix_trim (h : Erb.output code <:+: value) :
    Erb.output code <:+: Text.trim value := by
  refine Text.infix_trim (fun c hc => ?_) (fun c hc => ?_) h
  · obtain rfl : '<' = c := by simpa [Erb.output] using hc
    decide
  · obtain rfl : '>' = c := by simpa [getLast?_output] using hc
    decide

/-- Merging styles keeps every tag, since only blanks are taken from a value's ends. -/
theorem output_infix_mergeStyle (h : Erb.output code <:+: base ∨ Erb.output code <:+: additional) :
    Erb.output code <:+: mergeStyle base additional := by
  have hterminated : ∀ {style : Text}, Erb.output code <:+: style →
      Erb.output code <:+: terminated style := by
    intro style hstyle
    unfold terminated
    simp only
    split
    · exact output_infix_trim hstyle
    · exact (output_infix_trim hstyle).trans (List.prefix_append _ _).isInfix
  refine output_infix_trim ?_
  rcases h with h | h
  · exact (hterminated h).trans (List.prefix_append _ _).isInfix
  · exact (hterminated h).trans ((List.suffix_cons _ _).trans (List.suffix_append _ _)).isInfix

end Haml.Attribute
