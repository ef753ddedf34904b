import Haml.Proofs.Block
import Haml.Proofs.Escape
import Haml.Proofs.TagStart

/-!
# Tags with enclosed attributes

A tag with nothing behind its name, classes and ids, then attributes whose quotes and braces are
closed, then text: each is read as what it is, whatever stands behind it. So the statement that an
attribute block is folded into is read as the element of its first line, with the attributes and the
text of the lines below.
-/

namespace Haml

/-! ## Braces -/

namespace Code

theorem splitAtClose_append {opening closing : Char} {quoting : Quoting} {depth : Nat}
    {s : Text} {parts : Text × Text} (h : splitAtClose opening closing quoting depth s = some parts)
    (more : Text) :
    splitAtClose opening closing quoting depth (s ++ more) = some (parts.1, parts.2 ++ more) := by
  have hcons : ∀ {c : Char} {inner inner' : Option (Text × Text)} {parts : Text × Text},
      inner.map (Prod.map (c :: ·) id) = some parts →
      (∀ parts, inner = some parts → inner' = some (parts.1, parts.2 ++ more)) →
      inner'.map (Prod.map (c :: ·) id) = some (parts.1, parts.2 ++ more) := by
    intro c inner inner' parts hmap hinner
    obtain ⟨found, hfound, rfl⟩ := Option.map_eq_some_iff.mp hmap
    rw [hinner found hfound]
    rfl
  fun_induction splitAtClose opening closing quoting depth s generalizing parts with
  | case1 => cases h
  | case2 quote escaped depth c cs ih =>
      rw [List.cons_append, splitAtClose]
      exact hcons h fun _ => ih
  | case3 depth c cs hquote ih =>
      rw [List.cons_append, splitAtClose, if_pos hquote]
      exact hcons h fun _ => ih
  | case4 depth cs hquote ih =>
      rw [List.cons_append, splitAtClose, if_neg hquote, if_pos rfl]
      exact hcons h fun _ => ih
  | case5 depth c cs hquote hopening hclosing =>
      rw [List.cons_append, splitAtClose, if_neg hquote, if_neg hopening, if_pos hclosing]
      cases h
      rfl
  | case6 depth cs hquote hopening hclosing ih =>
      rw [List.cons_append, splitAtClose, if_neg hquote, if_neg hopening, if_neg hclosing, if_pos rfl]
      exact hcons h fun _ => ih
  | case7 depth c cs hquote hopening hclosing hother ih =>
      rw [List.cons_append, splitAtClose, if_neg hquote, if_neg hopening, if_neg hclosing,
        if_neg hother]
      exact hcons h fun _ => ih

/-- Between two braces, the text is all that the braces hold: its quotes and braces are closed. -/
def IsEnclosed (s : Text) : Prop := splitAtClose '{' '}' .code 1 (s ++ ['}']) = some (s, [])

instance (s : Text) : Decidable (IsEnclosed s) :=
  inferInstanceAs (Decidable (splitAtClose '{' '}' .code 1 (s ++ ['}']) = some (s, [])))

theorem braced?_of_isEnclosed {s : Text} (h : IsEnclosed s) (more : Text) :
    braced? ('{' :: (s ++ '}' :: more)) = some ⟨s, more⟩ := by
  have hsplit := splitAtClose_append h more
  rw [List.append_assoc] at hsplit
  have hstart : Text.trimStart ('{' :: (s ++ '}' :: more)) = '{' :: (s ++ '}' :: more) := rfl
  rw [braced?, hstart]
  simp only [List.cons_append, List.nil_append] at hsplit
  simp [hsplit]

theorem braced?_eq_none {s : Text} (h : (Text.trimStart s).head? ≠ some '{') : braced? s = none := by
  unfold braced?
  split
  · rename_i heq
    exact absurd (by rw [heq, List.head?_cons]) h
  · rfl

end Code

/-! ## Bare tags -/

/--
Classes and ids: nothing, or a sigil and characters of a token chain, the last of which is no hash. A
hash right before a brace is not read as a sigil.
-/
structure Shorthand.IsChain (s : Text) : Prop where
  head : ∀ c ∈ s.head?, isSigil c = true
  chars : ∀ c ∈ s, isChainChar c = true ∨ c = '#'
  last : s.getLast? ≠ some '#'

/-- A name or a class or an id, then classes and ids, and nothing else. -/
inductive Tag.IsBare : Text → Prop where
  | named {name chain : Text} : Html.IsName name → Shorthand.IsChain chain →
      IsBare ('%' :: (name ++ chain))
  | generic {chain : Text} : Shorthand.IsChain chain → Shorthand.tokens chain ≠ [] → IsBare chain

namespace Tag

/-- A bare tag is read as such up to an open brace. -/
theorem IsBare.parse? {head : Text} (h : IsBare head) :
    ∃ name tokens, ∀ rest, parse? (head ++ '{' :: rest) = some (ofParts name tokens ('{' :: rest)) := by
  have hends : ∀ {chain}, Shorthand.IsChain chain → ∀ rest,
      Shorthand.chain (chain ++ '{' :: rest) = (chain, '{' :: rest) := fun hchain rest =>
    Shorthand.chain_append hchain.chars rfl fun heq => absurd heq hchain.last
  cases h with
  | named hname hchain =>
      exact ⟨_, _, fun rest =>
        (IsStem.named hname ⟨hchain.head, hchain.chars⟩).parse? (hends hchain rest)⟩
  | generic hchain htokens =>
      exact ⟨_, _, fun rest =>
        (IsStem.generic ⟨hchain.head, hchain.chars⟩ htokens).parse? (hends hchain rest)⟩

theorem IsBare.kind_of {head : Text} (h : IsBare head) (rest : Text) :
    Kind.of (head ++ rest) = .element ∨ Kind.of (head ++ rest) = .classShorthand
      ∨ Kind.of (head ++ rest) = .idShorthand := by
  cases h with
  | named => exact .inl rfl
  | generic hchain htokens =>
      match head, hchain, htokens with
      | [], _, htokens => exact absurd rfl htokens
      | [c], hchain, _ =>
          rcases Shorthand.eq_of_isSigil (hchain.head c rfl) with rfl | rfl
          · exact .inr (.inl rfl)
          · exact absurd rfl hchain.last
      | c :: d :: cs, hchain, _ =>
          rcases Shorthand.eq_of_isSigil (hchain.head c rfl) with rfl | rfl
          · exact .inr (.inl rfl)
          · have hd : d ≠ '{' := by
              rintro rfl
              rcases hchain.chars '{' (by simp) with hd | hd
              · exact absurd hd (by decide)
              · cases hd
            exact .inr (.inr (by simp [Kind.of, hd]))

/-- Behind a bare tag, attributes and content are read from the brace on. -/
theorem IsBare.exists_parse? {head : Text} (h : IsBare head) (rest : Text) :
    ∃ tag, Tag.parse? (head ++ '{' :: rest) = some tag
      ∧ tag.attributes = (splitAttributes ('{' :: rest)).1
      ∧ tag.content = Content.ofText (Text.trim (splitAttributes ('{' :: rest)).2) := by
  obtain ⟨name, tokens, hparse⟩ := h.parse?
  exact ⟨_, hparse rest, rfl, rfl⟩

theorem splitAttributes_of_isEnclosed {attributes : Text} (h : Code.IsEnclosed attributes) (rest : Text) :
    splitAttributes ('{' :: (attributes ++ '}' :: rest)) = (some attributes, rest) := by
  rw [splitAttributes, Code.braced?_of_isEnclosed h]

end Tag

/-! ## Contents -/

theorem Text.flatMap_eq_join (content : Text) (contents : List Text) :
    (content :: contents).flatMap (' ' :: ·) = ' ' :: join [' '] (content :: contents) := by
  induction contents generalizing content with
  | nil => simp [join]
  | cons next rest ih =>
      rw [List.flatMap_cons, ih, join_cons_cons]
      rfl

theorem Text.join_cons (content : Text) (contents : List Text) :
    join [' '] (content :: contents) = content ++ contents.flatMap (' ' :: ·) := by
  cases contents with
  | nil => simp [join]
  | cons next rest => rw [join_cons_cons, flatMap_eq_join]; rfl

/-- Contents behind blanks are the contents with blanks between them. -/
theorem Text.trim_contents {contents : List Text} (h : ∀ content ∈ contents,
    ∃ line : Line, line.isBlank = false ∧ content = line.stripped) :
    trim (contents.flatMap (' ' :: ·)) = join [' '] contents := by
  cases contents with
  | nil => rfl
  | cons content rest =>
      have hlast := Statement.isBlank_getLast?_contents h
      obtain ⟨line, hb, rfl⟩ := h content List.mem_cons_self
      obtain ⟨c, cs, hstripped⟩ := List.exists_cons_of_ne_nil (Line.stripped_ne_nil hb)
      obtain ⟨_, _, hc⟩ := eq_append_of_trim hstripped
      obtain ⟨tail, htail⟩ : ∃ tail, join [' '] (line.stripped :: rest) = c :: tail := by
        cases rest <;> simp [join, hstripped]
      rw [flatMap_eq_join, htail] at hlast ⊢
      have hend : trimEnd (c :: tail) = c :: tail := trimEnd_eq_self fun d hd => hlast d (by simpa using hd)
      have hspace : ∀ b ∈ [' '], isBlank b = true := List.forall_mem_singleton.mpr rfl
      have htrim := trim_append_cons hspace hc tail
      rwa [← trimEnd_cons hc, hend] at htrim

theorem Content.ofText_of_text {content more : Text} (h : Kind.of content = .text)
    (hmore : ∀ c ∈ more.head?, c = ' ') : ofText (content ++ more) = .text (content ++ more) := by
  -- The equals sign after the first character is the content's own, since a blank comes after it.
  have hsecond : ∀ {c : Char} {code : Text}, content ++ more = c :: '=' :: code → content ≠ [c] →
      ∃ rest, content = c :: '=' :: rest := by
    intro c code heq hne
    match content, heq, hne with
    | [], heq, _ => cases h
    | [d], heq, hne =>
        obtain ⟨rfl, _⟩ := List.cons.inj heq
        exact absurd rfl hne
    | d :: e :: rest, heq, _ =>
        cases heq
        exact ⟨rest, rfl⟩
  have hone : ∀ {c : Char} {code : Text}, content ++ more = c :: '=' :: code → content ≠ [c] := by
    rintro c code heq rfl
    obtain ⟨_, rfl⟩ := List.cons.inj heq
    exact absurd (hmore '=' rfl) (by decide)
  unfold ofText
  split
  · rename_i code heq
    obtain ⟨rest, rfl⟩ := hsecond heq (hone heq)
    cases h
  · rename_i code heq
    obtain ⟨rest, rfl⟩ := hsecond heq (hone heq)
    cases h
  · rename_i code heq
    cases content with
    | nil => cases h
    | cons c cs =>
        obtain ⟨rfl, _⟩ := List.cons.inj heq
        cases h
  · rfl

theorem Content.ofText_join {contents : List Text} (h : ∀ content ∈ contents, Kind.of content = .text) :
    ofText (Text.join [' '] contents) = .text (Text.join [' '] contents) := by
  cases contents with
  | nil => rfl
  | cons content rest =>
      have hkind := h content List.mem_cons_self
      cases rest with
      | nil => simpa [Text.join] using @ofText_of_text content [] hkind (by simp)
      | cons next more =>
          rw [Text.join_cons_cons]
          exact ofText_of_text hkind (by simp)

end Haml
