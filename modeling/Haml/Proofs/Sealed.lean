import Haml.Proofs.Class
import Haml.Proofs.Value

/-!
# Sealed values

A value between double quotes is sealed if all code tags in it are closed and no double quote stands
outside of them: then the quote behind it is the first one that can end it. The values that are read off
a line without ERB delimiters are sealed, and so are the values that they are merged into.
-/

namespace Haml

/-- A text in which every code tag is closed and no double quote stands outside of a tag. -/
inductive Sealed : Text → Prop where
  | nil : Sealed []
  | char {c : Char} {s : Text} : c ≠ '"' → ¬ ['<', '%'] <+: c :: s → Sealed s → Sealed (c :: s)
  | tag {code s : Text} : ¬ ['%', '>'] <:+: code → Sealed s → Sealed (Erb.output code ++ s)

theorem head?_of_prefix_cons {a b c : Char} {s : Text} (h : [a, b] <+: c :: s) :
    a = c ∧ s.head? = some b := by
  rw [List.cons_prefix_cons] at h
  obtain ⟨rfl, rest, rfl⟩ := h
  exact ⟨rfl, rfl⟩

/-! ## Parts -/

namespace Sealed

variable {s t code : Text}

theorem append (h : Sealed s) (h' : Sealed t) (hseam : t.head? ≠ some '%') : Sealed (s ++ t) := by
  induction h with
  | nil => exact h'
  | @char c s hc hcut _ ih =>
      refine .char hc (fun hopen => hcut ?_) ih
      cases s with
      | nil => exact absurd (head?_of_prefix_cons hopen).2 hseam
      | cons d ds => simpa [List.cons_prefix_cons] using hopen
  | tag hcode _ ih =>
      rw [List.append_assoc]
      exact .tag hcode ih

theorem blank_cons (h : Sealed s) : Sealed (' ' :: s) :=
  .char (by decide) (by simp [List.cons_prefix_cons]) h

theorem reference_append (h : Sealed s) : Sealed ("&quot;".toList ++ s) := by
  have hreference : Sealed "&quot".toList := by
    repeat refine .char (by decide) (by decide) ?_
    exact .nil
  have hend : Sealed (';' :: s) := .char (by decide) (by simp [List.cons_prefix_cons]) h
  have hsplit : "&quot;".toList ++ s = "&quot".toList ++ ';' :: s := rfl
  rw [hsplit]
  exact hreference.append hend (by simp)

theorem join {parts : List Text} (h : ∀ part ∈ parts, Sealed part) : Sealed (Text.join [' '] parts) := by
  induction parts with
  | nil => exact nil
  | cons first rest ih =>
      obtain ⟨hfirst, hrest⟩ := List.forall_mem_cons.mp h
      cases rest with
      | nil => simpa [Text.join] using hfirst
      | cons second more =>
          rw [Text.join_cons_cons]
          exact hfirst.append (ih hrest).blank_cons (by simp)

/-! ## Blanks at the ends -/

theorem trimStart (h : Sealed s) : Sealed (Text.trimStart s) := by
  induction h with
  | nil => exact nil
  | @char c s hc hcut hs ih =>
      rw [Text.trimStart, List.dropWhile_cons]
      split
      · exact ih
      · exact .char hc hcut hs
  | @tag code s hcode hs _ =>
      have hstay : Text.trimStart (Erb.output code ++ s) = Erb.output code ++ s :=
        List.dropWhile_cons_of_neg (by decide)
      rw [hstay]
      exact .tag hcode hs

/-- A blank at the end is no part of a tag. -/
theorem of_concat {b : Char} (hb : Text.isBlank b = true) (h : Sealed (s ++ [b])) : Sealed s := by
  generalize hall : s ++ [b] = all at h
  induction h generalizing s with
  | nil => simp at hall
  | @char c cs hc hcut _ ih =>
      cases s with
      | nil => exact nil
      | cons d ds =>
          obtain ⟨rfl, rfl⟩ := List.cons.inj hall
          exact .char hc (fun hopen => hcut (hopen.trans (List.prefix_append _ _))) (ih rfl)
  | @tag code cs hcode _ ih =>
      rcases List.eq_nil_or_concat' cs with rfl | ⟨front, last, rfl⟩
      · -- The tag ends with its delimiter, and not with the blank.
        have hlast := congrArg List.getLast? hall
        rw [List.getLast?_concat, List.append_nil, Attribute.getLast?_output] at hlast
        cases hlast
        exact absurd hb (by decide)
      · rw [← List.append_assoc] at hall
        obtain ⟨rfl, hlast⟩ := List.append_inj' hall rfl
        exact .tag hcode (ih (by rw [hlast]))

theorem trimEnd (h : Sealed s) : Sealed (Text.trimEnd s) := by
  induction s using List.reverseRecOn with
  | nil => exact nil
  | append_singleton s b ih =>
      cases hb : Text.isBlank b with
      | true =>
          have hdrop : Text.trimEnd (s ++ [b]) = Text.trimEnd s := by simp [Text.trimEnd, hb]
          rw [hdrop]
          exact ih (of_concat hb h)
      | false =>
          rw [Text.trimEnd_eq_self (by simpa using hb)]
          exact h

theorem trim (h : Sealed s) : Sealed (Text.trim s) := h.trimStart.trimEnd

end Sealed

/-! ## Merged values -/

namespace Attribute

variable {code s base additional : Text}

/-- A character opens no tag if it does not start the delimiter. -/
theorem isDelimiter_eq_false_of_not_prefix_cons {c : Char} (h : ¬ ['<', '%'] <+: c :: s) :
    ∀ d ∈ s.head?, isDelimiter false c d = false := by
  intro d hd
  cases hread : isDelimiter false c d with
  | false => rfl
  | true =>
      obtain ⟨ds, rfl⟩ := List.head?_eq_some_iff.mp hd
      obtain ⟨rfl, rfl⟩ : c = '<' ∧ d = '%' := by simpa [isDelimiter] using hread
      exact absurd (List.prefix_append ['<', '%'] ds) h

/-- A closed tag is read as a part of the run that it stands in. -/
theorem classRuns_output_append (h : ¬ ['%', '>'] <:+: code) {head : Text} {tail : List Text}
    (hruns : classRuns false s = head :: tail) :
    classRuns false (Erb.output code ++ s) = (Erb.output code ++ head) :: tail := by
  rw [read_output_append classRuns_delimiter (fun hcut => ?_) h, hruns,
    Text.foldr_consHead]
  simpa using classRuns_cons hcut

theorem sealed_of_mem_classRuns (h : Sealed s) : ∀ run ∈ classRuns false s, Sealed run := by
  induction h with
  | nil =>
      intro run hrun
      obtain rfl := List.mem_singleton.mp hrun
      exact .nil
  | @char c s hc hcut _ ih =>
      rw [classRuns_cons (isDelimiter_eq_false_of_not_prefix_cons hcut)]
      split
      · exact List.forall_mem_cons.mpr ⟨.nil, ih⟩
      · obtain ⟨head, tail, hruns, hstarts, _⟩ := classRuns_spec false s
        rw [hruns] at ih ⊢
        obtain ⟨hhead, htail⟩ := List.forall_mem_cons.mp ih
        refine List.forall_mem_cons.mpr ⟨.char hc (fun hopen => hcut ?_) hhead, htail⟩
        exact hopen.trans (by simpa using hstarts)
  | @tag code s hcode _ ih =>
      obtain ⟨head, tail, hruns, _⟩ := classRuns_spec false s
      rw [classRuns_output_append hcode hruns]
      rw [hruns] at ih
      obtain ⟨hhead, htail⟩ := List.forall_mem_cons.mp ih
      exact List.forall_mem_cons.mpr ⟨.tag hcode hhead, htail⟩

theorem sealed_mergeClass (hbase : Sealed base) (hadditional : Sealed additional) :
    Sealed (mergeClass base additional) := by
  refine .join fun token htoken => ?_
  rcases List.mem_append.mp (mem_distinct.mp htoken) with htoken | htoken
  · exact sealed_of_mem_classRuns hbase token (List.mem_of_mem_filter htoken)
  · exact sealed_of_mem_classRuns hadditional token (List.mem_of_mem_filter htoken)

theorem sealed_mergeStyle (hbase : Sealed base) (hadditional : Sealed additional) :
    Sealed (mergeStyle base additional) := by
  have hterminated : ∀ {style : Text}, Sealed style → Sealed (terminated style) := by
    intro style hstyle
    unfold terminated
    simp only
    split
    · exact hstyle.trim
    · exact hstyle.trim.append (.char (by decide) (by simp [List.cons_prefix_cons]) .nil) (by simp)
  exact ((hterminated hbase).append (hterminated hadditional).blank_cons (by simp)).trim

end Attribute

/-! ## Values read off a line -/

namespace Entry

variable {s t : Text}

theorem head?_escapeQuotes_append (c : Char) (s t : Text) :
    (escapeQuotes (c :: s) ++ t).head? = some (if c = '"' then '&' else c) := by
  by_cases hc : c = '"'
  · rw [hc, escapeQuotes_quote]
    rfl
  · rw [escapeQuotes_cons hc, if_neg hc]
    rfl

theorem escapeQuotes_join (parts : List Text) :
    escapeQuotes (Text.join [' '] parts) = Text.join [' '] (parts.map escapeQuotes) := by
  induction parts with
  | nil => rfl
  | cons first rest ih =>
      cases rest with
      | nil => simp [Text.join]
      | cons second more =>
          rw [List.map_cons] at ih
          rw [Text.join_cons_cons, escapeQuotes_append, escapeQuotes_append, ih, List.map_cons,
            List.map_cons, Text.join_cons_cons]
          rfl

/-- Writing quotes as references seals a text without delimiters in front of a sealed one. -/
theorem sealed_escapeQuotes_append (h : ¬ ['<', '%'] <:+: s) (ht : Sealed t)
    (hseam : s.getLast? = some '<' → t.head? ≠ some '%') : Sealed (escapeQuotes s ++ t) := by
  induction s with
  | nil => exact ht
  | cons c cs ih =>
      have hcs : ¬ ['<', '%'] <:+: cs := fun hpart => h (hpart.trans (List.suffix_cons c cs).isInfix)
      have hrest : Sealed (escapeQuotes cs ++ t) :=
        ih hcs fun hlast => hseam (List.mem_getLast?_cons hlast)
      by_cases hc : c = '"'
      · rw [hc, escapeQuotes_quote]
        exact hrest.reference_append
      · rw [escapeQuotes_cons hc, List.cons_append]
        refine .char hc (fun hopen => ?_) hrest
        obtain ⟨rfl, hpercent⟩ := head?_of_prefix_cons hopen
        cases cs with
        | nil => exact hseam rfl hpercent
        | cons d ds =>
            rw [head?_escapeQuotes_append] at hpercent
            have hd : d = '%' := by grind
            exact h ⟨[], ds, by rw [hd]; rfl⟩

theorem sealed_escapeQuotes (h : ¬ ['<', '%'] <:+: s) : Sealed (escapeQuotes s) := by
  simpa using sealed_escapeQuotes_append h .nil (by simp)

theorem not_infix_escapeQuotes (h : ¬ ['%', '>'] <:+: s) : ¬ ['%', '>'] <:+: escapeQuotes s := by
  induction s with
  | nil => simp [escapeQuotes]
  | cons c cs ih =>
      have hcs := ih fun hpart => h (hpart.trans (List.suffix_cons c cs).isInfix)
      by_cases hc : c = '"'
      · rw [hc, escapeQuotes_quote]
        simpa [List.infix_cons_iff, List.cons_prefix_cons] using hcs
      · rw [escapeQuotes_cons hc, List.infix_cons_iff, not_or]
        refine ⟨fun hclose => ?_, hcs⟩
        obtain ⟨rfl, hgreater⟩ := head?_of_prefix_cons hclose
        cases cs with
        | nil => cases hgreater
        | cons d ds =>
            have hhead := head?_escapeQuotes_append d ds []
            rw [List.append_nil, hgreater] at hhead
            have hd : d = '>' := by grind
            exact h ⟨[], ds, by rw [hd]; rfl⟩

end Entry

namespace Attribute

open Entry Interpolation

variable {s : Text}

theorem infix_of_infix_unescape {c d : Char} (hc : isHidden c = false) (hd : isHidden d = false)
    (h : [c, d] <:+: unescape s) : [c, d] <:+: s := by
  have hslash : ∀ {e : Char}, isHidden e = false → e ≠ '\\' := by
    rintro _ he rfl
    cases he
  obtain ⟨front, back, heq⟩ := h
  have hfirst : unescape s = front ++ c :: d :: back := by simpa using heq.symm
  obtain ⟨before, after, rfl, _, hafter⟩ := eq_append_of_unescape hc (hslash hc) hfirst
  have hsecond : unescape after = [] ++ d :: back := hafter
  obtain ⟨none, rest, rfl, hnone, _⟩ := eq_append_of_unescape hd (hslash hd) hsecond
  obtain rfl := eq_nil_of_unescape hnone
  exact ⟨before, rest, by simp⟩

/-- A percent sign that segments are written with first is the one that they are read off first. -/
theorem exists_read_of_head?_write {segments : List Segment}
    (h : (escapeQuotes (segments.flatMap Segment.write)).head? = some '%') :
    ∃ tail, segments.flatMap Segment.read = '%' :: tail := by
  cases segments with
  | nil => cases h
  | cons segment rest =>
      cases segment with
      | char c =>
          have hhead := head?_escapeQuotes_append c (rest.flatMap Segment.write) []
          rw [List.append_nil] at hhead
          rw [List.flatMap_cons, Segment.write, List.singleton_append, hhead] at h
          have hc : c = '%' := by grind
          rw [hc]
          exact ⟨_, rfl⟩
      | escaped code => cases h
      | marker code => cases h

/-- Expanding a text without delimiters adds no delimiters but those of its tags. -/
theorem sealed_escapeQuotes_write {segments : List Segment}
    (hopen : ¬ ['<', '%'] <:+: segments.flatMap Segment.read)
    (hclose : ¬ ['%', '>'] <:+: segments.flatMap Segment.read) :
    Sealed (escapeQuotes (segments.flatMap Segment.write)) := by
  induction segments with
  | nil => exact .nil
  | cons segment rest ih =>
      rw [List.flatMap_cons] at hopen hclose
      have hrest := ih (fun h => hopen (h.trans (List.suffix_append _ _).isInfix))
        (fun h => hclose (h.trans (List.suffix_append _ _).isInfix))
      rw [List.flatMap_cons, escapeQuotes_append]
      cases segment with
      | char c =>
          refine sealed_escapeQuotes_append ?_ hrest fun hlast hpercent => ?_
          · exact fun h => absurd h.length_le (by simp [Segment.write])
          · obtain rfl : c = '<' := by simpa [Segment.write] using hlast
            obtain ⟨tail, htail⟩ := exists_read_of_head?_write hpercent
            exact hopen ⟨[], tail, by rw [htail]; rfl⟩
      | escaped code =>
          refine sealed_escapeQuotes_append (fun h => hopen ?_) hrest fun hlast => ?_
          · exact (h.trans (List.suffix_cons '\\' _).isInfix).trans (List.prefix_append _ _).isInfix
          · simp [Segment.write, List.getLast?_cons] at hlast
      | marker code =>
          have hcode : code <:+: Segment.read (.marker code) := ⟨['#', '{'], ['}'], by simp [Segment.read]⟩
          rw [Segment.write, escapeQuotes_output]
          refine .tag (not_infix_escapeQuotes fun h => hclose ?_) hrest
          exact (h.trans hcode).trans (List.prefix_append _ _).isInfix

end Attribute

/-- A value whose text, if it has one, is sealed. -/
def EntryValue.IsSealed (value : EntryValue) : Prop := ∀ text, value = .text text → Sealed text

theorem EntryValue.IsFrom.isSealed {s : Text} {value : EntryValue} (h : value.IsFrom s)
    (hopen : ¬ ['<', '%'] <:+: s) (hclose : ¬ ['%', '>'] <:+: s) : value.IsSealed := by
  have hunescape : ∀ {c d : Char} {body : Text}, Attribute.isHidden c = false →
      Attribute.isHidden d = false → body <:+: s → ¬ [c, d] <:+: s →
      ¬ [c, d] <:+: Attribute.unescape body := fun hc hd hbody hnone hpart =>
    hnone ((Attribute.infix_of_infix_unescape hc hd hpart).trans hbody)
  cases h with
  | flag => rintro _ ⟨⟩
  | code hcode =>
      rintro _ ⟨⟩
      simpa using Sealed.tag (fun hpart => hclose (hpart.trans hcode)) .nil
  | plain htext =>
      rintro _ ⟨⟩
      exact Entry.sealed_escapeQuotes fun hpart => hopen (hpart.trans htext)
  | decoded hbody =>
      rintro _ ⟨⟩
      exact Entry.sealed_escapeQuotes (hunescape rfl rfl hbody hopen)
  | expanded hbody =>
      rintro _ ⟨⟩
      refine Attribute.sealed_escapeQuotes_write ?_ ?_ <;>
        rw [Interpolation.flatMap_read_segments]
      · exact hunescape rfl rfl hbody hopen
      · exact hunescape rfl rfl hbody hclose

theorem AttributeSet.isSealed_combine (key : Text) {before value : EntryValue} (hbefore : before.IsSealed)
    (hvalue : value.IsSealed) : (combine key before value).IsSealed := by
  intro text h
  unfold combine at h
  split at h
  · rename_i base additional
    have hbase : Sealed base := hbefore base rfl
    have hadditional : Sealed additional := hvalue additional rfl
    split at h
    · cases h
      exact Attribute.sealed_mergeClass hbase hadditional
    · split at h
      · cases h
        exact Attribute.sealed_mergeStyle hbase hadditional
      · cases h
        exact hadditional
  · exact hvalue text h

theorem Tag.isSealed_of_mem_attributeSet {content : Text} {tag : Tag} (h : parse? content = some tag)
    (hopen : ¬ ['<', '%'] <:+: content) (hclose : ¬ ['%', '>'] <:+: content) :
    ∀ entry ∈ tag.attributeSet.entries, entry.value.IsSealed := by
  have hshorthand : ∀ entry ∈ tag.shorthandEntries, entry.value.IsSealed := by
    intro entry hentry
    obtain ⟨key, names, rfl, hnames⟩ := of_mem_shorthandEntries h hentry
    rintro _ ⟨⟩
    rw [Entry.escapeQuotes_join]
    refine Sealed.join fun part hpart => ?_
    obtain ⟨name, hname, rfl⟩ := List.mem_map.mp hpart
    exact Entry.sealed_escapeQuotes fun hpart => hopen (hpart.trans (hnames name hname))
  have hliteral : ∀ entry ∈ tag.literalEntries, entry.value.IsSealed := fun entry hentry =>
    (isFrom_of_mem_literalEntries h hentry).isSealed hopen hclose
  have hempty : ∀ entry ∈ AttributeSet.empty.entries, entry.value.IsSealed :=
    fun entry hentry => by cases hentry
  have hset := AttributeSet.forall_mem_merge (P := fun e => e.value.IsSealed)
    (fun key _ _ => AttributeSet.isSealed_combine key) hempty hshorthand
  exact AttributeSet.forall_mem_merge (P := fun e => e.value.IsSealed)
    (fun key _ _ => AttributeSet.isSealed_combine key) hset hliteral

end Haml
