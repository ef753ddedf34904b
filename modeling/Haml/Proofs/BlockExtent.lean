import Haml.Proofs.BlockText
import Haml.Proofs.Layout

/-!
# Where attribute blocks end

The fold ends an attribute block at the first line that is nothing but a closing brace, whereas the tag is
read up to the brace that matches its own. The two agree exactly if the opener looks like an element to the
fold, its braces do not open an interpolation, and no attribute line is a closing brace alone. Main
statement: exactly then the block is folded as a whole, and all of its fragments are read as the attributes
of its element.
-/

namespace Haml

/-! ## Openers -/

namespace Tag

open Shorthand

variable {stem name chain : Text}

theorem toNat_of_isNameChar {c : Char} (h : Text.isNameChar c = true) : c.toNat < 0x80 := by
  have hdigit : c.isDigit = true → c.toNat < 0x80 := fun h =>
    Nat.lt_of_le_of_lt (UInt32.le_iff_toNat_le.mp (of_decide_eq_true (Bool.and_eq_true_iff.mp h).2))
      (by decide)
  rcases Bool.or_eq_true_iff.mp h with h | hhyphen
  · rcases Bool.or_eq_true_iff.mp h with h | hunderscore
    · rcases Bool.or_eq_true_iff.mp h with halpha | h
      · exact Attribute.toNat_of_isIdentStart (by simp [Text.isIdentStart, halpha])
      · exact hdigit h
    · rw [of_decide_eq_true hunderscore]
      decide
  · rw [of_decide_eq_true hhyphen]
    decide

/-- What a tag line starts with holds no blanks, no braces, and no equals signs. -/
theorem IsStem.isOpenerChar (h : IsStem stem name chain) :
    ∀ c ∈ stem, Text.isBlank c = false ∧ Statement.isOpenerChar c = true := by
  have hname : ∀ {c}, Text.isNameChar c = true →
      Text.isBlank c = false ∧ Statement.isOpenerChar c = true := fun hc =>
    Text.of_ascii (P := fun c => Text.isNameChar c = true →
      Text.isBlank c = false ∧ Statement.isOpenerChar c = true) (by decide +kernel)
        (toNat_of_isNameChar hc) hc
  have hrun : ∀ {s}, Shorthand.IsRun s →
      ∀ c ∈ s, Text.isBlank c = false ∧ Statement.isOpenerChar c = true := by
    intro s hs c hc
    rcases hs.chars c hc with hchain | rfl
    · rcases (by simpa [Shorthand.isChainChar, or_assoc] using hchain :
        Text.isNameChar c = true ∨ c = ':' ∨ c = '.') with hc | rfl | rfl
      · exact hname hc
      · decide
      · decide
    · decide
  cases h with
  | named hnamed hchain =>
      refine List.forall_mem_cons.mpr ⟨by decide, fun c hc => ?_⟩
      rcases List.mem_append.mp hc with hc | hc
      · exact hname (hnamed.isNameChar c hc)
      · exact hrun hchain c hc
  | generic hchain => exact hrun hchain

theorem IsStem.two_le_length (h : IsStem stem name chain) : 2 ≤ stem.length := by
  cases h with
  | named hname =>
      have hpos := List.length_pos_of_ne_nil hname.ne_nil
      simp only [List.length_cons, List.length_append]
      omega
  | generic _ htokens =>
      match stem, htokens with
      | [], htokens => exact absurd rfl htokens
      | [c], htokens =>
          refine absurd ?_ htokens
          rw [tokens]
          split <;> rfl
      | _ :: _ :: _, _ => simp

/-- A tag with nothing behind its chain is what its line starts with, but for blanks. -/
theorem exists_stem_of_bare {head : Text} {tag : Tag} (h : parse? head = some tag)
    (hattributes : tag.attributes = none) (hcontent : tag.content = .text []) :
    ∃ name chain blanks, IsStem (Text.trimEnd head) name chain ∧ head = Text.trimEnd head ++ blanks
      ∧ (∀ b ∈ blanks, Text.isBlank b = true)
      ∧ tag = ⟨name, (tokens chain).filterMap className?, (tokens chain).filterMap idName?, none,
        .text []⟩ := by
  obtain ⟨stem, name, chain, rest, hstem, rfl, rfl⟩ := exists_isStem h
  have hsplit : splitAttributes rest = (none, rest) := by
    unfold splitAttributes
    split
    · rename_i hbraced
      simp [ofParts, splitAttributes, hbraced] at hattributes
    · rfl
  have htrim : Text.trim rest = [] := by
    rw [ofParts, hsplit] at hcontent
    unfold Content.ofText at hcontent
    grind
  have hblanks := Text.trim_eq_nil_iff.mp htrim
  have hend : Text.trimEnd (stem ++ rest) = stem := by
    rw [Text.trimEnd_append_blanks hblanks]
    exact Text.trimEnd_eq_self fun c hc => (hstem.isOpenerChar c (List.mem_of_getLast? hc)).1
  refine ⟨name, chain, rest, by rwa [hend], by rw [hend], hblanks, ?_⟩
  rw [ofParts, hsplit]
  simp [htrim, Content.ofText]

/-! ## Braces behind a tag -/

theorem tokens_hash (s : Text) : tokens (s ++ ['#']) = tokens s := by
  induction s with
  | nil => rfl
  | cons c cs ih =>
      have htake := takeWhile_append_cons (p := fun d => !isSigil d) (a := '#') rfl cs []
      rw [List.cons_append, tokens, tokens, ih, htake]

/-- A hash that a tag line starts up to stands at the end of its chain, and is no token. -/
theorem IsStem.exists_of_hash (h : IsStem stem name chain) (hlast : stem.getLast? = some '#') :
    ∃ stem' front, stem = stem' ++ ['#'] ∧ IsStem stem' name front := by
  have hfront : ∀ {front}, IsRun (front ++ ['#']) → IsRun front := fun hrun =>
    ⟨fun c hc => hrun.head c (by rw [List.head?_append, hc]; rfl), fun c hc => hrun.chars c (by simp [hc])⟩
  cases h with
  | named hname hrun =>
      rcases List.eq_nil_or_concat chain with rfl | ⟨front, c, rfl⟩
      · obtain ⟨c, hc⟩ : ∃ c, name.getLast? = some c :=
          ⟨_, List.getLast?_eq_some_getLast hname.ne_nil⟩
        rw [List.append_nil, List.getLast?_cons, hc] at hlast
        obtain rfl : c = '#' := Option.some.inj hlast
        exact absurd (hname.isNameChar '#' (List.mem_of_getLast? hc)) (by decide)
      · have hconcat : '%' :: (name ++ front.concat c) = '%' :: (name ++ front) ++ [c] := by simp
        rw [hconcat, List.getLast?_concat] at hlast
        obtain rfl : c = '#' := Option.some.inj hlast
        exact ⟨'%' :: (name ++ front), front, by simp, .named hname (hfront (by simpa using hrun))⟩
  | generic hrun htokens =>
      obtain ⟨front, rfl⟩ := List.getLast?_eq_some_iff.mp hlast
      rw [tokens_hash] at htokens
      exact ⟨front, front, rfl, .generic (hfront hrun) htokens⟩

theorem IsStem.isRun (h : IsStem stem name chain) : IsRun chain ∧ chain <:+ stem := by
  cases h with
  | named _ hrun => exact ⟨hrun, (List.suffix_append _ _).trans (List.suffix_cons _ _)⟩
  | generic hrun => exact ⟨hrun, List.suffix_rfl⟩

/-- A brace behind a hash is an interpolation, and opens no attributes. -/
theorem IsStem.attributes_of_hash (h : IsStem stem name chain) (hlast : stem.getLast? = some '#')
    {rest : Text} {tag : Tag} (hparse : Tag.parse? (stem ++ '{' :: rest) = some tag) : tag.attributes = none := by
  obtain ⟨stem', front, rfl, hstem⟩ := h.exists_of_hash hlast
  have hends : EndsChain ('#' :: '{' :: rest) := rfl
  have hread := hstem.parse? (chain_append hstem.isRun.1.chars hends (by simp))
  have hbraced : Code.braced? ('#' :: '{' :: rest) = none :=
    Code.braced?_eq_none fun heq => absurd (Option.some.inj heq) (by decide)
  rw [List.append_assoc] at hparse
  cases hread.symm.trans hparse
  simp [ofParts, splitAttributes, hbraced]

/-- Any other brace opens attributes. -/
theorem IsStem.parse?_brace (h : IsStem stem name chain) (hlast : stem.getLast? ≠ some '#') (rest : Text) :
    Tag.parse? (stem ++ '{' :: rest) = some (ofParts name (tokens chain) ('{' :: rest)) := by
  obtain ⟨hrun, before, rfl⟩ := h.isRun
  refine h.parse? (chain_append hrun.chars rfl fun heq => absurd ?_ hlast)
  rw [List.getLast?_append, heq]
  rfl

end Tag

namespace Statement

variable {line closing : Line} {head : Text} {tag : Tag} {attributes above below rest : List Line}

/--
A line ends with an open brace behind a tag that has no attributes and no content, deeper lines hold closed
quotes and braces, and the brace that matches stands alone on its line.
-/
structure IsAttributeBlock (line : Line) (head : Text) (tag : Tag) (attributes : List Line) (closing : Line) :
    Prop where
  opener : line.stripped = head ++ ['{']
  parse : Tag.parse? head = some tag
  noAttributes : tag.attributes = none
  noContent : tag.content = .text []
  deeper : ∀ next ∈ attributes, next.isBlank = false → line.indent < next.indent
  enclosed : Code.IsEnclosed (textOf attributes)
  closing : closing.stripped = ['}']

/--
The lines of a block, with the text below it, are one statement, which is read as the tag of the opener with
all fragments for its attributes.
-/
def FoldsWhole (line : Line) (tag : Tag) (attributes : List Line) (closing : Line) (below : List Line) : Prop :=
  ∃ statement,
    ofLines (line :: (attributes ++ closing :: below))
        = statement :: ofLines (below.drop (blockContent line.indent below).2)
      ∧ statement.span = attributes.length + 2 + (blockContent line.indent below).2
      ∧ Tag.parse? statement.stripped = some { tag with
          attributes := some (' ' :: (Text.join ", ".toList (fragmentsOf attributes) ++ [' ']))
          content := .text (Text.join [' '] (blockContent line.indent below).1) }

/-! ## The first closing brace -/

/-- Attributes are taken up to the first line that is a closing brace. -/
theorem blockAttributes?_of_brace {indent : Nat}
    (hdeeper : ∀ next ∈ above, next.isBlank = false → indent < next.indent)
    (hbrace : ∀ next ∈ above, next.stripped ≠ ['}']) (hclosing : closing.stripped = ['}'])
    (rest : List Line) :
    blockAttributes? indent (above ++ closing :: rest)
      = some (fragmentsOf above, above.length + 1) := by
  induction above with
  | nil => simp [blockAttributes?, Line.isBlank, hclosing, fragmentsOf]
  | cons next more ih =>
      obtain ⟨hnext, hmore⟩ := List.forall_mem_cons.mp hdeeper
      obtain ⟨hother, hothers⟩ := List.forall_mem_cons.mp hbrace
      rw [List.cons_append, blockAttributes?, ih hmore hothers]
      cases hb : next.isBlank with
      | true =>
          have hempty : withoutComma next.stripped = [] := by
            rw [List.isEmpty_iff.mp hb]
            rfl
          simp [fragmentsOf, hempty]
      | false =>
          have hle : ¬ next.indent ≤ indent := Nat.not_le.mpr (hnext hb)
          by_cases hempty : withoutComma next.stripped = []
          · simp [hother, hle, fragmentsOf, hempty]
          · simp [hother, hle, fragmentsOf, hempty]

theorem exists_first_brace (h : ¬ ∀ next ∈ attributes, next.stripped ≠ ['}']) :
    ∃ above brace rest, attributes = above ++ brace :: rest ∧ brace.stripped = ['}']
      ∧ ∀ next ∈ above, next.stripped ≠ ['}'] := by
  have hsome : (attributes.find? (·.stripped = ['}'])).isSome = true := by
    simpa [List.find?_isSome] using h
  obtain ⟨brace, hfind⟩ := Option.isSome_iff_exists.mp hsome
  obtain ⟨hbrace, above, rest, heq, habove⟩ := List.find?_eq_some_iff_append.mp hfind
  exact ⟨above, brace, rest, heq, of_decide_eq_true hbrace,
    fun next hnext => by simpa using habove next hnext⟩

/-! ## Openers -/

theorem startsElement_append {s : Text} (h : 2 ≤ s.length) (t : Text) :
    startsElement (s ++ t) = startsElement s := by
  match s, h with
  | c :: d :: cs, _ =>
      by_cases hsigil : c = '%' ∨ c = '.' ∨ c = '#'
      · rcases hsigil with rfl | rfl | rfl <;> rfl
      · obtain ⟨hpercent, hdot, hhash⟩ := by simpa only [not_or] using hsigil
        simp [startsElement, hpercent, hdot, hhash]

section

variable (h : IsAttributeBlock line head tag attributes closing)

include h

theorem startsElement_stripped : startsElement line.stripped = startsElement head := by
  obtain ⟨name, chain, blanks, hstem, hhead, _⟩ :=
    Tag.exists_stem_of_bare h.parse h.noAttributes h.noContent
  have hlength : 2 ≤ head.length := by
    have hle := hstem.two_le_length
    rw [hhead, List.length_append]
    omega
  rw [h.opener, startsElement_append hlength]

theorem blockOpener?_of_block (hstart : startsElement head = true) :
    blockOpener? line.stripped = some (Text.trimEnd head) := by
  obtain ⟨name, chain, blanks, hstem, hhead, hblanks, _⟩ :=
    Tag.exists_stem_of_bare h.parse h.noAttributes h.noContent
  have hchars : ∀ c ∈ head, isOpenerChar c = true := by
    intro c hc
    rw [hhead] at hc
    rcases List.mem_append.mp hc with hc | hc
    · exact (hstem.isOpenerChar c hc).2
    · have hne : ∀ d, Text.isBlank d = false → c ≠ d := by
        rintro d hd rfl
        rw [hblanks c hc] at hd
        cases hd
      simp [isOpenerChar, hne '{' (by decide), hne '=' (by decide)]
  have hstop : isOpenerChar '{' = false := by decide
  have hdrop : line.stripped.dropWhile isOpenerChar = ['{'] := by
    rw [h.opener, List.dropWhile_append_of_pos hchars, List.dropWhile_cons_of_neg (by simp [hstop])]
  have htake : line.stripped.takeWhile isOpenerChar = head := by
    rw [h.opener, takeWhile_append_cons hstop, List.takeWhile_eq_self_iff.mpr hchars]
  rw [blockOpener?, startsElement_stripped h, hstart, hdrop, htake]
  rfl

theorem first_of_not_startsElement (hstart : startsElement head = false) (following : List Line) :
    first line following = single line := by
  have hopener : blockOpener? line.stripped = none := by
    rw [blockOpener?, startsElement_stripped h, hstart]
    rfl
  have hcontinued : isContinued line.stripped = false := by
    rw [isContinued, h.opener, List.getLast?_concat]
    simp
  exact first_eq_single following hopener hcontinued

end

/-! ## What the fold makes of a block -/

section

variable {brace : Line} (h : IsAttributeBlock line head tag attributes closing)
  (hstart : startsElement head = true) (habove : above <+: attributes) (hbrace : brace.stripped = ['}'])
  (hothers : ∀ next ∈ above, next.stripped ≠ ['}'])

include h hstart habove hbrace hothers

/-- Up to the first closing brace, lines are folded into the braces of the opener. -/
theorem of_first_brace (rest : List Line) :
    (first line (above ++ brace :: rest)).stripped
        = Text.trimEnd head ++ '{' :: (' ' :: (Text.join ", ".toList (fragmentsOf above) ++ [' '])
            ++ '}' :: (blockContent line.indent rest).1.flatMap (' ' :: ·))
      ∧ (first line (above ++ brace :: rest)).span = above.length + 2 + (blockContent line.indent rest).2
      ∧ linesAfter line (above ++ brace :: rest) = rest.drop (blockContent line.indent rest).2 := by
  have hopener := blockOpener?_of_block h hstart
  have hattributes := blockAttributes?_of_brace (fun next hnext => h.deeper next (habove.mem hnext)) hothers
    hbrace rest
  have hblock := first_of_block hopener hattributes
  have hdrop : (above ++ brace :: rest).drop (above.length + 1) = rest := by simp
  have hstripped := stripped_of_block? hopener hattributes hblock
  have hafter := linesAfter_of_block hopener hattributes
  rw [hdrop] at hstripped hafter
  refine ⟨by simpa using hstripped, ?_, hafter⟩
  obtain ⟨_, _, _, _, hattributes', _, hspan⟩ := of_block? hblock
  cases hattributes.symm.trans hattributes'
  rw [hspan, hdrop]
  omega

end

/-- A block without lone braces is folded as a whole. -/
theorem foldsWhole (h : IsAttributeBlock line head tag attributes closing) (below : List Line)
    (hstart : startsElement head = true) (hlast : (Text.trimEnd head).getLast? ≠ some '#')
    (hothers : ∀ next ∈ attributes, next.stripped ≠ ['}']) :
    FoldsWhole line tag attributes closing below := by
  obtain ⟨name, chain, _, hstem, _, _, rfl⟩ := Tag.exists_stem_of_bare h.parse h.noAttributes h.noContent
  obtain ⟨hstripped, hspan, hafter⟩ := of_first_brace h hstart List.prefix_rfl h.closing hothers below
  have hbraced := Code.braced?_of_isEnclosed (isEnclosed_join h.enclosed)
    ((blockContent line.indent below).1.flatMap (' ' :: ·))
  refine ⟨first line (attributes ++ closing :: below), ?_, hspan, ?_⟩
  · rw [ofLines, ← hafter, linesAfter]
  · rw [hstripped, hstem.parse?_brace hlast, Tag.ofParts, Tag.splitAttributes, hbraced]
    simp only [ofText_blockContent]

/-- Fragments that are cut at a lone brace are not all fragments. -/
theorem join_fragmentsOf_ne {brace : Line} (hbrace : brace.stripped = ['}']) (above rest : List Line)
    (s t : Text) :
    Text.join ", ".toList (fragmentsOf (above ++ brace :: rest)) ++ ' ' :: s
      ≠ Text.join ", ".toList (fragmentsOf above) ++ ' ' :: t := by
  have hsplit : fragmentsOf (above ++ brace :: rest) = fragmentsOf above ++ ['}'] :: fragmentsOf rest := by
    have hfragment : withoutComma brace.stripped = ['}'] := by
      rw [hbrace]
      rfl
    simp [fragmentsOf, hfragment]
  intro heq
  rw [hsplit] at heq
  cases habove : fragmentsOf above with
  | nil =>
      rw [habove] at heq
      cases hrest : fragmentsOf rest <;> simp [hrest, Text.join] at heq
  | cons first more =>
      rw [habove, Text.join_append (by simp) (by simp), List.append_assoc] at heq
      have hcomma := List.append_cancel_left heq
      simp at hcomma

/-- The fold cuts what it takes for another line, for an interpolation, or at a lone brace. -/
theorem of_foldsWhole (h : IsAttributeBlock line head tag attributes closing)
    (hwhole : FoldsWhole line tag attributes closing below) : startsElement head = true
      ∧ (Text.trimEnd head).getLast? ≠ some '#' ∧ ∀ next ∈ attributes, next.stripped ≠ ['}'] := by
  obtain ⟨statement, hlines, hspan, hparse⟩ := hwhole
  obtain ⟨rfl, _⟩ : first line (attributes ++ closing :: below) = statement ∧ _ := by
    rw [ofLines] at hlines
    exact List.cons.inj hlines
  obtain ⟨name, chain, _, hstem, _, _, rfl⟩ := Tag.exists_stem_of_bare h.parse h.noAttributes h.noContent
  have hstart : startsElement head = true := by
    by_contra hnot
    rw [first_of_not_startsElement h (by simpa using hnot)] at hspan
    simp only [single] at hspan
    omega
  have hlast : (Text.trimEnd head).getLast? ≠ some '#' := by
    intro hhash
    obtain ⟨above, brace, rest, heq, habove, hbrace, hothers⟩ : ∃ above brace rest,
        attributes ++ closing :: below = above ++ brace :: rest ∧ above <+: attributes
          ∧ brace.stripped = ['}'] ∧ ∀ next ∈ above, next.stripped ≠ ['}'] := by
      by_cases hothers : ∀ next ∈ attributes, next.stripped ≠ ['}']
      · exact ⟨attributes, closing, below, rfl, List.prefix_rfl, h.closing, hothers⟩
      · obtain ⟨above, brace, rest, rfl, hbrace, habove⟩ := exists_first_brace hothers
        exact ⟨above, brace, rest ++ closing :: below, by simp, List.prefix_append _ _, hbrace, habove⟩
    obtain ⟨hstripped, _⟩ := of_first_brace h hstart habove hbrace hothers rest
    rw [heq, hstripped] at hparse
    exact absurd (hstem.attributes_of_hash hhash hparse) (by simp)
  refine ⟨hstart, hlast, ?_⟩
  by_contra hlone
  obtain ⟨above, brace, rest, rfl, hbrace, hothers⟩ := exists_first_brace hlone
  obtain ⟨hstripped, _⟩ := of_first_brace h hstart (List.prefix_append _ _) hbrace hothers
    (rest ++ closing :: below)
  rw [List.append_assoc, List.cons_append, hstripped, hstem.parse?_brace hlast] at hparse
  obtain ⟨remaining, hremaining⟩ := Tag.of_splitAttributes (congrArg Tag.attributes (Option.some.inj hparse))
  have hstay : ∀ s, Text.trimStart ('{' :: s) = '{' :: s := fun _ => rfl
  rw [hstay] at hremaining
  refine join_fragmentsOf_ne hbrace above rest ('}' :: remaining)
    ('}' :: (blockContent line.indent (rest ++ closing :: below)).1.flatMap (' ' :: ·)) ?_
  simpa using hremaining.symm

/--
A block is folded as a whole, and all of its fragments are read as attributes, exactly if its opener looks
like an element, its brace opens no interpolation, and none of its lines is a closing brace alone.
-/
theorem foldsWhole_iff (h : IsAttributeBlock line head tag attributes closing) (below : List Line) :
    FoldsWhole line tag attributes closing below ↔ startsElement head = true
      ∧ (Text.trimEnd head).getLast? ≠ some '#' ∧ ∀ next ∈ attributes, next.stripped ≠ ['}'] :=
  ⟨of_foldsWhole h, fun ⟨hstart, hlast, hothers⟩ => foldsWhole h below hstart hlast hothers⟩

/-- A group that spans lines itself is folded with its block if a comma comes behind its brace. -/
theorem foldsWhole_group :
    FoldsWhole ⟨"  %div.a\x7b ".toList, true⟩ ⟨"div".toList, ["a".toList], [], none, .text []⟩
      [⟨"    data: \x7b".toList, true⟩, ⟨"      test: '\x7d'".toList, true⟩, ⟨"    \x7d,".toList, true⟩,
        ⟨[], true⟩, ⟨"    id: 'x'".toList, true⟩]
      ⟨"  \x7d".toList, true⟩ [⟨"    text".toList, true⟩] := by
  have hblock : IsAttributeBlock ⟨"  %div.a\x7b ".toList, true⟩ "%div.a".toList
      ⟨"div".toList, ["a".toList], [], none, .text []⟩
      [⟨"    data: \x7b".toList, true⟩, ⟨"      test: '\x7d'".toList, true⟩, ⟨"    \x7d,".toList, true⟩,
        ⟨[], true⟩, ⟨"    id: 'x'".toList, true⟩] ⟨"  \x7d".toList, true⟩ :=
    { opener := by decide
      parse := by decide
      noAttributes := rfl
      noContent := rfl
      deeper := by decide
      enclosed := by decide
      closing := by decide }
  exact (foldsWhole_iff hblock _).mpr ⟨by decide, by decide, by decide⟩

/-- A group that is the last attribute cuts its block: what comes behind it is lost as text of the page. -/
theorem not_foldsWhole_of_group :
    ¬ FoldsWhole ⟨"%div\x7b".toList, true⟩ ⟨"div".toList, [], [], none, .text []⟩
        [⟨"  id: 'x',".toList, true⟩, ⟨"  data: \x7b".toList, true⟩, ⟨"    test: 'y'".toList, true⟩,
          ⟨"  \x7d".toList, true⟩]
        ⟨"\x7d".toList, true⟩ []
      ∧ (convert "%div\x7b\n  id: 'x',\n  data: \x7b\n    test: 'y'\n  \x7d\n\x7d\n".toList).page
        = "<div>\x7b id: 'x', data: \x7b, test: 'y' \x7d</div>\n\x7d\n".toList
      ∧ (convert "%div\x7b\n  data: \x7b\n    test: 'y'\n  \x7d,\n  id: 'x'\n\x7d\n".toList).page
        = "<div data-test=\"y\" id=\"x\"></div>\n".toList := by
  refine ⟨fun hwhole => ?_, by decide +kernel, by decide +kernel⟩
  have hblock : IsAttributeBlock ⟨"%div\x7b".toList, true⟩ "%div".toList
      ⟨"div".toList, [], [], none, .text []⟩
      [⟨"  id: 'x',".toList, true⟩, ⟨"  data: \x7b".toList, true⟩, ⟨"    test: 'y'".toList, true⟩,
        ⟨"  \x7d".toList, true⟩] ⟨"\x7d".toList, true⟩ :=
    { opener := by decide
      parse := by decide
      noAttributes := rfl
      noContent := rfl
      deeper := by decide
      enclosed := by decide
      closing := by decide }
  exact absurd (of_foldsWhole hblock hwhole).2.2 (by decide)

end Statement

end Haml
