import Haml.Attribute.Fragment
import Haml.Code.Comment
import Haml.Tag.Parse
import Haml.Proofs.Text
import Mathlib.Data.List.Infix

/-!
# Where the parts of a line come from

Whatever is read off a line is a part of it, character for character: the text between braces, the
fragments between commas, the attributes and the content of a tag, and the code before a comment.
-/

namespace Haml

/-! ## Code -/

namespace Code

variable {s : Text}

theorem append_of_splitAtClose {opening closing : Char} {quoting : Quoting} {depth : Nat}
    {parts : Text × Text} (h : splitAtClose opening closing quoting depth s = some parts) :
    parts.1 ++ closing :: parts.2 = s := by
  have hcons : ∀ {c : Char} {cs : Text} {inner : Option (Text × Text)} {parts : Text × Text},
      inner.map (Prod.map (c :: ·) id) = some parts →
      (∀ parts, inner = some parts → parts.1 ++ closing :: parts.2 = cs) →
      parts.1 ++ closing :: parts.2 = c :: cs := by
    intro c cs inner parts hmap hinner
    obtain ⟨found, hfound, rfl⟩ := Option.map_eq_some_iff.mp hmap
    exact congrArg (c :: ·) (hinner found hfound)
  fun_induction splitAtClose opening closing quoting depth s generalizing parts with
  | case1 => cases h
  | case2 quote escaped depth c cs ih => exact hcons h fun _ => ih
  | case3 depth c cs hquote ih => exact hcons h fun _ => ih
  | case4 depth cs hquote ih => exact hcons h fun _ => ih
  | case5 depth c cs hquote hopening hclosing =>
      obtain ⟨hc, _⟩ := Bool.and_eq_true_iff.mp hclosing
      obtain rfl : c = closing := by simpa using hc
      cases h
      rfl
  | case6 depth cs hquote hopening hclosing ih => exact hcons h fun _ => ih
  | case7 depth c cs hquote hopening hclosing hother ih => exact hcons h fun _ => ih

theorem of_braced? {group : Braced} (h : braced? s = some group) :
    Text.trimStart s = '{' :: (group.content ++ '}' :: group.remaining) := by
  unfold braced? at h
  split at h
  · rename_i rest hrest
    obtain ⟨parts, hparts, rfl⟩ := Option.map_eq_some_iff.mp h
    rw [hrest, append_of_splitAtClose hparts]
  · cases h

theorem content_infix_of_braced? {group : Braced} (h : braced? s = some group) :
    group.content <:+: s := by
  refine List.IsInfix.trans ?_ (Text.trimStart_suffix s).isInfix
  rw [of_braced? h]
  exact ⟨['{'], '}' :: group.remaining, by simp⟩

theorem remaining_suffix_of_braced? {group : Braced} (h : braced? s = some group) :
    group.remaining <:+ s := by
  refine List.IsSuffix.trans ?_ (Text.trimStart_suffix s)
  rw [of_braced? h]
  exact ⟨'{' :: (group.content ++ ['}']), by simp⟩

/-- The first piece starts the text, and every piece is a part of it. -/
theorem pieces_spec (separator : Char) (quoting : Quoting) (depth : Nat) (s : Text) :
    ∃ head tail, pieces separator quoting depth s = head :: tail ∧ head <+: s
      ∧ ∀ piece ∈ tail, piece <:+: s := by
  have hcons : ∀ {c : Char} {cs : Text} {inner : List Text},
      (∃ head tail, inner = head :: tail ∧ head <+: cs ∧ ∀ piece ∈ tail, piece <:+: cs) →
      ∃ head tail, Text.consHead c inner = head :: tail ∧ head <+: c :: cs
        ∧ ∀ piece ∈ tail, piece <:+: c :: cs := by
    rintro c cs _ ⟨head, tail, rfl, hhead, htail⟩
    exact ⟨c :: head, tail, rfl, by simpa using hhead, fun piece hpiece =>
      (htail piece hpiece).trans (List.suffix_cons c cs).isInfix⟩
  fun_induction pieces separator quoting depth s with
  | case1 => exact ⟨[], [], rfl, List.prefix_rfl, fun _ h => by cases h⟩
  | case2 quote escaped depth c cs ih => exact hcons ih
  | case3 depth c cs hquote ih => exact hcons ih
  | case4 depth c cs hquote hopening ih => exact hcons ih
  | case5 depth c cs hquote hopening hclosing ih => exact hcons ih
  | case6 depth c cs hquote hopening hclosing hcut ih =>
      obtain ⟨head, tail, heq, hhead, htail⟩ := ih
      refine ⟨[], head :: tail, by rw [heq], List.nil_prefix, fun piece hpiece => ?_⟩
      have hcs : cs <:+: c :: cs := (List.suffix_cons c cs).isInfix
      rcases List.mem_cons.mp hpiece with rfl | hpiece
      · exact hhead.isInfix.trans hcs
      · exact (htail piece hpiece).trans hcs
  | case7 depth c cs hquote hopening hclosing hcut ih => exact hcons ih

theorem dropEmptyLast_cons (first second : Text) (rest : List Text) :
    dropEmptyLast (first :: second :: rest) = first :: dropEmptyLast (second :: rest) := by
  simp only [dropEmptyLast, List.getLast?_cons_cons, List.dropLast_cons_cons]
  split <;> rfl

theorem mem_pieces_of_mem_split {separator : Char} {part : Text} (h : part ∈ split separator s) :
    part ∈ pieces separator .code 0 s := by
  rw [split, dropEmptyLast] at h
  split at h
  · exact List.mem_of_mem_dropLast h
  · exact h

theorem infix_of_mem_split {separator : Char} {part : Text} (h : part ∈ split separator s) :
    part <:+: s := by
  obtain ⟨head, tail, heq, hhead, htail⟩ := pieces_spec separator .code 0 s
  rcases List.mem_cons.mp (heq ▸ mem_pieces_of_mem_split h) with rfl | hmem
  · exact hhead.isInfix
  · exact htail part hmem

theorem append_of_mem_hashCuts {cut : Text × Text} (h : cut ∈ hashCuts s) :
    cut.1 ++ ' ' :: '#' :: cut.2 = s := by
  induction s generalizing cut with
  | nil => cases h
  | cons c cs ih =>
      have hlater : cut ∈ (hashCuts cs).map (Prod.map (c :: ·) id) →
          cut.1 ++ ' ' :: '#' :: cut.2 = c :: cs := by
        intro hmem
        obtain ⟨inner, hinner, rfl⟩ := List.mem_map.mp hmem
        exact congrArg (c :: ·) (ih hinner)
      simp only [hashCuts] at h
      split at h
      · rename_i rest hrest
        rcases List.mem_cons.mp h with rfl | h
        · exact (Text.append_of_after? hrest :)
        · exact hlater h
      · exact hlater h

theorem suffix_of_mem_hashCuts {cut : Text × Text} (h : cut ∈ hashCuts s) : cut.2 <:+ s :=
  ⟨cut.1 ++ [' ', '#'], by rw [List.append_assoc]; exact append_of_mem_hashCuts h⟩

theorem append_of_comment? {before remark : Text} (h : comment? s = some (before, remark)) :
    before ++ ' ' :: '#' :: remark = s :=
  append_of_mem_hashCuts (List.mem_of_find?_eq_some h)

theorem suffix_of_comment? {before remark : Text} (h : comment? s = some (before, remark)) :
    remark <:+ s :=
  suffix_of_mem_hashCuts (List.mem_of_find?_eq_some h)

theorem prefix_of_comment? {before remark : Text} (h : comment? s = some (before, remark)) :
    before <+: s :=
  ⟨' ' :: '#' :: remark, append_of_comment? h⟩

end Code

/-! ## Attributes -/

namespace Attribute

theorem infix_of_mem_fragments {fragment s : Text} (h : fragment ∈ fragments s) :
    fragment <:+: s := by
  obtain ⟨part, hpart, rfl⟩ := List.mem_map.mp (List.mem_of_mem_filter h)
  exact (Text.trim_infix_self part).trans (Code.infix_of_mem_split hpart)

theorem infix_of_groupContent? {s content : Text} (h : groupContent? s = some content) :
    content <:+: s := by
  obtain ⟨_, h⟩ := Option.ite_none_left_eq_some.mp h
  obtain ⟨group, hgroup, h⟩ := Option.bind_eq_some_iff.mp h
  obtain ⟨_, h⟩ := Option.ite_none_right_eq_some.mp h
  cases h
  exact Code.content_infix_of_braced? hgroup

end Attribute

/-! ## Tags -/

namespace Tag

variable {content : Text} {tag : Tag}

theorem append_chain (s : Text) : (Shorthand.chain s).1 ++ (Shorthand.chain s).2 = s := by
  induction s with
  | nil => rfl
  | cons c cs ih =>
      rw [Shorthand.chain]
      split
      · exact congrArg (c :: ·) ih
      · rfl

theorem chain_suffix (s : Text) : (Shorthand.chain s).2 <:+ s := ⟨_, append_chain s⟩

theorem splitShorthand_suffix (s : Text) : (splitShorthand s).2 <:+ s := by
  unfold splitShorthand
  split
  · exact chain_suffix s
  · exact List.suffix_rfl

/-- A tag is read off the end of its line. -/
theorem of_parse? (h : parse? content = some tag) :
    ∃ name tokens rest, tag = ofParts name tokens rest ∧ rest <:+ content := by
  unfold parse? at h
  split at h
  · rename_i cs
    obtain ⟨_, h⟩ := Option.ite_none_left_eq_some.mp h
    cases h
    refine ⟨_, _, _, rfl, (splitShorthand_suffix _).trans ?_⟩
    exact (List.dropWhile_suffix _).trans (List.suffix_cons _ cs)
  · obtain ⟨_, h⟩ := Option.ite_none_left_eq_some.mp h
    cases h
    exact ⟨_, _, _, rfl, splitShorthand_suffix content⟩

theorem prefix_of_chain (s : Text) : (Shorthand.chain s).1 <+: s := ⟨_, append_chain s⟩

theorem infix_of_mem_tokens {chain : Text} {token : Shorthand} (h : token ∈ Shorthand.tokens chain) :
    (∀ name ∈ token.className?, name <:+: chain) ∧ ∀ name ∈ token.idName?, name <:+: chain := by
  induction chain with
  | nil => cases h
  | cons c cs ih =>
      have hcs : cs <:+: c :: cs := (List.suffix_cons c cs).isInfix
      have hlater : token ∈ Shorthand.tokens cs → (∀ name ∈ token.className?, name <:+: c :: cs)
          ∧ ∀ name ∈ token.idName?, name <:+: c :: cs := fun hmem =>
        ⟨fun name hname => ((ih hmem).1 name hname).trans hcs,
          fun name hname => ((ih hmem).2 name hname).trans hcs⟩
      rw [Shorthand.tokens] at h
      split at h
      · rcases List.mem_append.mp h with h | h
        · have hname : cs.takeWhile (!Shorthand.isSigil ·) <:+: c :: cs :=
            (List.takeWhile_prefix _).isInfix.trans hcs
          unfold Shorthand.ofSigil? at h
          grind [Shorthand.className?, Shorthand.idName?]
        · exact hlater h
      · exact hlater h

theorem infix_of_splitShorthand (s : Text) : ∀ token ∈ (splitShorthand s).1,
    (∀ name ∈ token.className?, name <:+: s) ∧ ∀ name ∈ token.idName?, name <:+: s := by
  intro token htoken
  unfold splitShorthand at htoken
  split at htoken
  · obtain ⟨hclass, hid⟩ := infix_of_mem_tokens htoken
    exact ⟨fun name hname => (hclass name hname).trans (prefix_of_chain s).isInfix,
      fun name hname => (hid name hname).trans (prefix_of_chain s).isInfix⟩
  · cases htoken

theorem tokens_infix_line (h : parse? content = some tag) :
    (∀ name ∈ tag.classes, name <:+: content) ∧ ∀ name ∈ tag.ids, name <:+: content := by
  have hparts : ∀ {s name rest : Text}, s <:+: content →
      some (ofParts name (splitShorthand s).1 rest) = some tag →
      (∀ name ∈ tag.classes, name <:+: content) ∧ ∀ name ∈ tag.ids, name <:+: content := by
    intro s name rest hs heq
    obtain rfl := Option.some.inj heq
    constructor
    · intro name hname
      obtain ⟨token, htoken, hname⟩ := List.mem_filterMap.mp hname
      exact ((infix_of_splitShorthand s token htoken).1 name hname).trans hs
    · intro name hname
      obtain ⟨token, htoken, hname⟩ := List.mem_filterMap.mp hname
      exact ((infix_of_splitShorthand s token htoken).2 name hname).trans hs
  unfold parse? at h
  split at h
  · rename_i cs
    obtain ⟨_, h⟩ := Option.ite_none_left_eq_some.mp h
    exact hparts ((List.dropWhile_suffix _).trans (List.suffix_cons _ cs)).isInfix h
  · obtain ⟨_, h⟩ := Option.ite_none_left_eq_some.mp h
    exact hparts List.infix_rfl h

theorem of_splitAttributes {s attributes : Text} (h : (splitAttributes s).1 = some attributes) :
    ∃ remaining, Text.trimStart s = '{' :: (attributes ++ '}' :: remaining) := by
  unfold splitAttributes at h
  split at h
  · rename_i group hbraced
    cases h
    exact ⟨group.remaining, Code.of_braced? hbraced⟩
  · cases h

theorem splitAttributes_infix_line (s : Text) :
    (∀ text ∈ (splitAttributes s).1, text <:+: s) ∧ (splitAttributes s).2 <:+ s := by
  unfold splitAttributes
  split
  · rename_i group hgroup
    refine ⟨fun text htext => ?_, Code.remaining_suffix_of_braced? hgroup⟩
    obtain rfl := Option.mem_some.mp htext
    exact Code.content_infix_of_braced? hgroup
  · exact ⟨fun _ h => absurd h (Option.not_mem_none _), List.suffix_rfl⟩

theorem attributes_infix_line {text : Text} (h : parse? content = some tag)
    (htext : tag.attributes = some text) : text <:+: content := by
  obtain ⟨name, tokens, rest, rfl, hrest⟩ := of_parse? h
  exact ((splitAttributes_infix_line rest).1 text htext).trans hrest.isInfix

theorem content_infix_line {text : Text} (h : parse? content = some tag)
    (htext : tag.content = .text text ∨ ∃ escaping, tag.content = .output escaping text) :
    text <:+: content := by
  obtain ⟨name, tokens, rest, rfl, hrest⟩ := of_parse? h
  have hfollowing : Text.trim (splitAttributes rest).2 <:+: content :=
    (Text.trim_infix_self _).trans ((splitAttributes_infix_line rest).2.trans hrest).isInfix
  refine List.IsInfix.trans ?_ hfollowing
  change Content.ofText (Text.trim (splitAttributes rest).2) = _ ∨ ∃ escaping,
    Content.ofText (Text.trim (splitAttributes rest).2) = _ at htext
  unfold Content.ofText at htext
  split at htext
  · rename_i code heq
    obtain rfl : Text.trim code = text := by simpa using htext
    rw [heq]
    exact (Text.trim_infix_self code).trans (List.suffix_append ['!', '='] code).isInfix
  · rename_i code heq
    obtain rfl : Text.trim code = text := by simpa using htext
    rw [heq]
    exact (Text.trim_infix_self code).trans (List.suffix_append ['&', '='] code).isInfix
  · rename_i code heq
    obtain rfl : Text.trim code = text := by simpa using htext
    rw [heq]
    exact (Text.trim_infix_self code).trans (List.suffix_cons '=' code).isInfix
  · obtain rfl : Text.trim (splitAttributes rest).2 = text := by simpa using htext
    exact List.infix_rfl

end Tag

end Haml
