import Haml.Text.Basic
import Mathlib.Data.List.TakeWhile

/-!
# Trimming and indentation

A text is blanks, then a core that neither starts nor ends with a blank, then blanks. Trimming gives
the core, and the indentation is read off the blanks before it.
-/

namespace Haml

section

variable {α : Type} {p : α → Bool} {a : α}

/-- Taking from the front stops at the first element that fails, whatever comes behind it. -/
theorem takeWhile_append_cons (h : p a = false) (above below : List α) :
    (above ++ a :: below).takeWhile p = above.takeWhile p := by
  induction above with
  | nil => exact List.takeWhile_cons_of_neg (by simp [h])
  | cons b above ih => simp only [List.cons_append, List.takeWhile_cons, ih]

theorem dropWhile_append_cons (h : p a = false) (above below : List α) :
    (above ++ a :: below).dropWhile p = above.dropWhile p ++ a :: below := by
  induction above with
  | nil => exact List.dropWhile_cons_of_neg (by simp [h])
  | cons b above ih =>
      simp only [List.cons_append, List.dropWhile_cons, ih]
      split <;> rfl

theorem notMem_of_all {l : List α} (hl : l.all (fun b => !p b) = true) (h : p a = true) : a ∉ l := by
  intro hmem
  have hother := List.all_eq_true.mp hl a hmem
  rw [h] at hother
  cases hother

end

namespace Text

/-! ## Blanks -/

/-- What holds of the ASCII characters one by one holds of each of them. -/
theorem of_ascii {P : Char → Prop} (h : ∀ n < 0x80, P (Char.ofNat n)) {c : Char} (hc : c.toNat < 0x80) :
    P c := by
  have hchar := h c.toNat hc
  rwa [Char.ofNat_toNat] at hchar

theorem isBlank_of_isIndent {c : Char} (h : isIndent c = true) : isBlank c = true := by
  rcases (by simpa [isIndent] using h : c = ' ' ∨ c = '\t') with rfl | rfl <;> decide

theorem isBlank_of_mem_space : ∀ b ∈ [' '], isBlank b = true := List.forall_mem_singleton.mpr rfl

theorem isIndent_eq_false_of_not_isBlank {c : Char} (h : isBlank c = false) : isIndent c = false := by
  cases hi : isIndent c with
  | false => rfl
  | true => rw [isBlank_of_isIndent hi] at h; cases h

/-! ## Trimming -/

theorem trimStart_suffix (s : Text) : trimStart s <:+ s := List.dropWhile_suffix _

theorem trimEnd_prefix_self (s : Text) : trimEnd s <+: s := by
  rw [← List.reverse_suffix, trimEnd, List.reverse_reverse]
  exact List.dropWhile_suffix _

theorem trim_infix_self (s : Text) : trim s <:+: s :=
  (trimEnd_prefix_self _).isInfix.trans (trimStart_suffix s).isInfix

theorem takeWhile_append_trimStart (s : Text) : s.takeWhile isBlank ++ trimStart s = s :=
  List.takeWhile_append_dropWhile

/-- Behind a character that is no blank, trimming the end goes on as if it were not there. -/
theorem trimEnd_cons {c : Char} (h : isBlank c = false) (s : Text) :
    trimEnd (c :: s) = c :: trimEnd s := by
  simp only [trimEnd, List.reverse_cons, List.dropWhile_append]
  split
  · rename_i hempty
    have hnil : s.reverse.dropWhile isBlank = [] := List.isEmpty_iff.mp hempty
    simp [hnil, h]
  · simp

theorem trimEnd_append_cons {c : Char} (h : isBlank c = false) (before s : Text) :
    trimEnd (before ++ c :: s) = before ++ c :: trimEnd s := by
  have hcore : (trimEnd (c :: s)).reverse ≠ [] := by simp [trimEnd_cons h]
  rw [trimEnd, List.reverse_reverse] at hcore
  rw [← trimEnd_cons h, trimEnd, List.reverse_append, List.dropWhile_append,
    if_neg (by simpa using hcore), List.reverse_append, List.reverse_reverse, trimEnd]

theorem trimStart_append_cons {blanks : Text} {c : Char} (hb : ∀ b ∈ blanks, isBlank b = true)
    (h : isBlank c = false) (s : Text) : trimStart (blanks ++ c :: s) = c :: s := by
  rw [trimStart, List.dropWhile_append_of_pos hb, List.dropWhile_cons_of_neg (by simp [h])]

theorem trim_append_cons {blanks : Text} {c : Char} (hb : ∀ b ∈ blanks, isBlank b = true)
    (h : isBlank c = false) (s : Text) : trim (blanks ++ c :: s) = c :: trimEnd s := by
  rw [trim, trimStart_append_cons hb h, trimEnd_cons h]

/-- A text with content is blanks and then the first character of its content. -/
theorem eq_append_of_trim {s : Text} {c : Char} {cs : Text} (h : trim s = c :: cs) :
    ∃ tail, trimStart s = c :: tail ∧ isBlank c = false := by
  cases hs : trimStart s with
  | nil => simp [trim, hs, trimEnd] at h
  | cons d ds =>
      have hd : isBlank d = false := by
        have := List.head?_dropWhile_not isBlank s
        rw [show s.dropWhile isBlank = d :: ds from hs] at this
        simpa using this
      rw [trim, hs, trimEnd_cons hd] at h
      cases h
      exact ⟨ds, rfl, hd⟩

theorem trimEnd_eq_self {s : Text} (h : ∀ c ∈ s.getLast?, isBlank c = false) : trimEnd s = s := by
  rw [trimEnd, List.dropWhile_eq_self_iff.mpr, List.reverse_reverse]
  intro hlength hblank
  have hlast : s.reverse[0] ∈ s.getLast? := by
    rw [← List.head?_reverse, List.head?_eq_getElem?]
    exact List.getElem?_eq_getElem hlength
  rw [h _ hlast] at hblank
  cases hblank

theorem isBlank_getLast?_trim (s : Text) : ∀ c ∈ (trim s).getLast?, isBlank c = false := by
  intro c hc
  rw [trim, trimEnd, List.getLast?_reverse] at hc
  have := List.head?_dropWhile_not isBlank (trimStart s).reverse
  rw [Option.mem_def.mp hc] at this
  simpa using this

theorem trim_trim (s : Text) : trim (trim s) = trim s := by
  have hlast := isBlank_getLast?_trim s
  cases h : trim s with
  | nil => rfl
  | cons c cs =>
      obtain ⟨_, _, hc⟩ := eq_append_of_trim h
      rw [h] at hlast
      rw [trim, trimStart, List.dropWhile_cons_of_neg (by simp [hc]), trimEnd_eq_self hlast]

theorem trimEnd_append_blanks {blanks : Text} (h : ∀ b ∈ blanks, isBlank b = true) (s : Text) :
    trimEnd (s ++ blanks) = trimEnd s := by
  have hreverse : ∀ b ∈ blanks.reverse, isBlank b = true := by simpa using h
  rw [trimEnd, List.reverse_append, List.dropWhile_append_of_pos hreverse, trimEnd]

theorem exists_trimEnd_append (s : Text) :
    ∃ blanks, s = trimEnd s ++ blanks ∧ ∀ b ∈ blanks, isBlank b = true := by
  refine ⟨(s.reverse.takeWhile isBlank).reverse, ?_,
    fun b hb => List.mem_takeWhile_imp (List.mem_reverse.mp hb)⟩
  rw [trimEnd, ← List.reverse_append, List.takeWhile_append_dropWhile, List.reverse_reverse]

theorem trimEnd_trimEnd (s : Text) : trimEnd (trimEnd s) = trimEnd s := by
  obtain ⟨blanks, hs, hblanks⟩ := exists_trimEnd_append s
  calc trimEnd (trimEnd s) = trimEnd (trimEnd s ++ blanks) := (trimEnd_append_blanks hblanks _).symm
    _ = trimEnd s := by rw [← hs]

/-- Blanks around a trimmed text are taken away. -/
theorem trim_padded {lead s trail : Text} (hlead : ∀ b ∈ lead, isBlank b = true)
    (htrail : ∀ b ∈ trail, isBlank b = true) (hne : s ≠ []) (hs : trim s = s) :
    trim (lead ++ (s ++ trail)) = s := by
  obtain ⟨c, cs, rfl⟩ := List.exists_cons_of_ne_nil hne
  obtain ⟨_, _, hc⟩ := eq_append_of_trim hs
  have hend : c :: trimEnd cs = c :: cs := by
    rw [← hs, trim, trimStart, List.dropWhile_cons_of_neg (by simp [hc]), trimEnd_cons hc]
  rw [List.cons_append, trim_append_cons hlead hc, trimEnd_append_blanks htrail, hend]

theorem trim_eq_nil_iff {s : Text} : trim s = [] ↔ ∀ c ∈ s, isBlank c = true := by
  constructor
  · intro h
    refine List.dropWhile_eq_nil_iff.mp ?_
    cases hs : s.dropWhile isBlank with
    | nil => rfl
    | cons c cs =>
        have hc : isBlank c = false := by
          have := List.head?_dropWhile_not isBlank s
          rw [hs] at this
          simpa using this
        rw [trim, trimStart, hs, trimEnd_cons hc] at h
        cases h
  · intro h
    rw [trim, trimStart, List.dropWhile_eq_nil_iff.mpr h]
    rfl

/-- Behind a text with content, what ends with content is left by trimming. -/
theorem trim_trimEnd_append {s t : Text} (hs : trim s ≠ []) (ht : ∀ c ∈ t.getLast?, isBlank c = false) :
    trim (trimEnd s ++ t) = trim s ++ t := by
  obtain ⟨c, cs, htrim⟩ := List.exists_cons_of_ne_nil hs
  obtain ⟨tail, htail, hc⟩ := eq_append_of_trim htrim
  have hblanks : ∀ b ∈ s.takeWhile isBlank, isBlank b = true := fun _ hb => List.mem_takeWhile_imp hb
  have hend : trimEnd s = s.takeWhile isBlank ++ c :: trimEnd tail := by
    rw [← trimEnd_append_cons hc, ← htail, takeWhile_append_trimStart]
  have hcore : c :: trimEnd tail = trim s := by
    rw [← trimEnd_cons hc, ← htail, trim]
  have hlast : ∀ d ∈ (trim s ++ t).getLast?, isBlank d = false := by
    intro d hd
    rcases List.eq_nil_or_concat t with rfl | ⟨front, e, rfl⟩
    · exact isBlank_getLast?_trim s d (by simpa using hd)
    · exact ht d (by simpa [List.getLast?_append] using hd)
  rw [hend, List.append_assoc, List.cons_append, trim_append_cons hblanks hc, ← trimEnd_cons hc,
    ← List.cons_append, hcore, trimEnd_eq_self hlast]

/-- What ends with content is not taken away by trimming. -/
theorem trim_append_eq_iff {s t : Text} (ht : ∀ c ∈ t.getLast?, isBlank c = false) :
    trim (s ++ t) = trim s ↔ t = [] := by
  refine ⟨fun heq => ?_, fun hnil => by rw [hnil, List.append_nil]⟩
  by_contra hne
  have hlast := ht _ (List.getLast?_eq_some_getLast hne)
  cases htrim : trim s with
  | nil =>
      rw [htrim] at heq
      have hblank := trim_eq_nil_iff.mp heq _ (List.mem_append_right s (List.getLast_mem hne))
      rw [hlast] at hblank
      cases hblank
  | cons c cs =>
      obtain ⟨tail, htail, hc⟩ := eq_append_of_trim htrim
      have hblanks : ∀ b ∈ s.takeWhile isBlank, isBlank b = true := fun _ hb => List.mem_takeWhile_imp hb
      have hs : s = s.takeWhile isBlank ++ c :: tail := by rw [← htail, takeWhile_append_trimStart]
      have hend : trimEnd (tail ++ t) = tail ++ t := by
        refine trimEnd_eq_self fun d hd => ?_
        rw [List.getLast?_append, List.getLast?_eq_some_getLast hne] at hd
        exact Option.some.inj hd ▸ hlast
      rw [hs, List.append_assoc, List.cons_append, trim_append_cons hblanks hc, trim_append_cons hblanks hc,
        hend] at heq
      have hshort := (trimEnd_prefix_self tail).length_le
      have hlength := congrArg List.length (List.cons.inj heq).2
      have hpos := List.length_pos_iff.mpr hne
      rw [List.length_append] at hlength
      omega

theorem trim_trimEnd (s : Text) : trim (trimEnd s) = trim s := by
  by_cases h : trim s = []
  · rw [h]
    exact trim_eq_nil_iff.mpr fun c hc => trim_eq_nil_iff.mp h c ((trimEnd_prefix_self s).mem hc)
  · have htrim := trim_trimEnd_append (t := []) h fun _ hc => by cases hc
    rwa [List.append_nil, List.append_nil] at htrim

theorem trim_space (s : Text) : trim (' ' :: s) = trim s := rfl

/-- A part that starts and ends with content is left by trimming. -/
theorem infix_trim {part s : Text} (hhead : ∀ c ∈ part.head?, isBlank c = false)
    (hlast : ∀ c ∈ part.getLast?, isBlank c = false) (h : part <:+: s) : part <:+: trim s := by
  have hdrop : ∀ {t u : Text}, (∀ c ∈ t.head?, isBlank c = false) → t <:+: u →
      t <:+: u.dropWhile isBlank := by
    rintro t _ ht ⟨before, after, rfl⟩
    have hstay : (t ++ after).dropWhile isBlank = t ++ after ∨ t = [] := by
      cases t with
      | nil => exact .inr rfl
      | cons c cs => exact .inl (List.dropWhile_cons_of_neg (by simp [ht c rfl]))
    rcases hstay with hstay | rfl
    · rw [List.append_assoc, List.dropWhile_append, hstay]
      split
      · exact (List.prefix_append _ _).isInfix
      · exact ⟨_, _, List.append_assoc _ _ _⟩
    · exact List.nil_infix
  have hreverse : ∀ c ∈ part.reverse.head?, isBlank c = false := by
    simpa [List.head?_reverse] using hlast
  have hstart := hdrop hhead h
  have hend := hdrop hreverse (List.reverse_infix.mpr hstart)
  rwa [← List.reverse_infix, List.reverse_reverse] at hend

/-! ## Joining -/

theorem join_cons_cons (separator first second : Text) (rest : List Text) :
    join separator (first :: second :: rest)
      = first ++ (separator ++ join separator (second :: rest)) := by
  simp [join]

theorem join_append {above below : List Text} (habove : above ≠ []) (hbelow : below ≠ [])
    (separator : Text) :
    join separator (above ++ below) = join separator above ++ (separator ++ join separator below) := by
  induction above with
  | nil => exact absurd rfl habove
  | cons first rest ih =>
      obtain ⟨next, more, rfl⟩ := List.exists_cons_of_ne_nil hbelow
      cases rest with
      | nil => exact (join_cons_cons separator first next more).trans (by simp [join])
      | cons second rest =>
          rw [List.cons_append, List.cons_append, join_cons_cons, ← List.cons_append, ih (by simp),
            join_cons_cons]
          simp

theorem flatMap_append_eq_join (separator first : Text) (rest : List Text) :
    (first :: rest).flatMap (· ++ separator) = join separator (first :: rest) ++ separator := by
  induction rest generalizing first with
  | nil => simp [join]
  | cons second rest ih => rw [List.flatMap_cons, ih, join_cons_cons]; simp

theorem infix_join {parts : List Text} {part : Text} (h : part ∈ parts) (separator : Text) :
    part <:+: join separator parts := by
  induction parts with
  | nil => cases h
  | cons first rest ih =>
      cases rest with
      | nil =>
          obtain rfl := List.mem_singleton.mp h
          simp [join]
      | cons second rest =>
          rw [join_cons_cons]
          rcases List.mem_cons.mp h with rfl | h
          · exact (List.prefix_append _ _).isInfix
          · exact (ih h).trans ((List.suffix_append _ _).trans (List.suffix_append _ _)).isInfix

theorem notMem_join {c : Char} {separator : Text} (hseparator : c ∉ separator) {parts : List Text}
    (h : ∀ part ∈ parts, c ∉ part) : c ∉ join separator parts := by
  induction parts with
  | nil => simp [join]
  | cons first rest ih =>
      obtain ⟨hfirst, hrest⟩ := List.forall_mem_cons.mp h
      cases rest with
      | nil => simpa [join] using hfirst
      | cons second more => simp [join_cons_cons, hseparator, hfirst, ih hrest]

/-! ## First parts -/

theorem consHead_ne_nil (c : Char) (parts : List Text) : consHead c parts ≠ [] := by
  cases parts <;> exact List.cons_ne_nil _ _

theorem consHead_append (c : Char) {parts : List Text} (h : parts ≠ []) (more : List Text) :
    consHead c (parts ++ more) = consHead c parts ++ more := by
  cases parts with
  | nil => contradiction
  | cons part parts => rfl

theorem foldr_consHead (s part : Text) (parts : List Text) :
    s.foldr consHead (part :: parts) = (s ++ part) :: parts := by
  induction s with
  | nil => rfl
  | cons c cs ih => rw [List.foldr_cons, ih]; rfl

/-! ## Openings -/

theorem append_of_after? {opening s rest : Text} (h : after? opening s = some rest) :
    opening ++ rest = s := by
  induction opening generalizing s with
  | nil => simpa [after?, eq_comm] using h
  | cons o os ih =>
      cases s with
      | nil => simp [after?] at h
      | cons c cs =>
          rw [after?] at h
          obtain ⟨rfl, hrest⟩ := Option.ite_none_right_eq_some.mp h
          rw [List.cons_append, ih hrest]

/-! ## Indentation -/

/-- Only the blanks before a text's content count as its indentation. -/
theorem indentation_append_cons {blanks : Text} {c : Char} (h : isBlank c = false) (s : Text) :
    indentation (blanks ++ c :: s) = blanks.takeWhile isIndent :=
  takeWhile_append_cons (isIndent_eq_false_of_not_isBlank h) blanks s

end Text

end Haml
