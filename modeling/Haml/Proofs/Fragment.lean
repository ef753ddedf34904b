import Haml.Attribute.Fragment
import Haml.Proofs.Escape
import Haml.Proofs.Text
import Mathlib.Data.List.TakeWhile

/-!
# Reading fragments

What a fragment of an attribute text is read as tells where its key and its value stand in it. No
fragment can be split in two forms, as its first character tells in which it can be.
-/

namespace Haml

theorem Code.eq_of_isQuote {c : Char} (h : isQuote c = true) : c = '"' ∨ c = '\'' := by
  simpa [isQuote] using h

namespace Attribute

/-- A text that can stand as a key: it holds word characters and hyphens. -/
def IsKey (key : Text) : Prop := ∀ c ∈ key, isKeyChar c = true

/-! ## Keys -/

theorem toNat_of_isIdentStart {c : Char} (h : Text.isIdentStart c = true) : c.toNat < 0x80 := by
  rcases Bool.or_eq_true_iff.mp h with halpha | hunderscore
  · rcases Bool.or_eq_true_iff.mp halpha with hupper | hlower
    · have hle := UInt32.le_iff_toNat_le.mp (of_decide_eq_true hupper).2
      exact Nat.lt_of_le_of_lt hle (by decide)
    · have hle := UInt32.le_iff_toNat_le.mp (of_decide_eq_true (Bool.and_eq_true_iff.mp hlower).2)
      exact Nat.lt_of_le_of_lt hle (by decide)
  · rw [of_decide_eq_true hunderscore]
    decide

theorem isKeyChar_of_isIdentStart {c : Char} (h : Text.isIdentStart c = true) :
    isKeyChar c = true := by
  have hword : Text.isWord c = true := by
    rw [Text.isWord, Text.inClass, if_pos (toNat_of_isIdentStart h)]
    rcases Bool.or_eq_true_iff.mp h with halpha | hunderscore
    · simp [Char.isAlphanum, halpha]
    · simp [of_decide_eq_true hunderscore]
  simp [isKeyChar, hword]

theorem isKeyChar_of_isKeyStart {c : Char} (h : isKeyStart c = true) : isKeyChar c = true := by
  simp only [isKeyStart, Bool.or_eq_true] at h
  rcases h with h | h
  · exact isKeyChar_of_isIdentStart h
  · simp [isKeyChar, h]

theorem of_keyWord? {isStart : Char → Bool} {s key rest : Text}
    (hstart : ∀ c, isStart c = true → isKeyChar c = true)
    (h : keyWord? isStart s = some (key, rest)) : key ++ rest = s ∧ IsKey key := by
  unfold keyWord? at h
  split at h
  · cases h
  · rename_i c cs
    obtain ⟨hc, h⟩ := Option.ite_none_right_eq_some.mp h
    cases h
    refine ⟨by rw [List.cons_append, List.takeWhile_append_dropWhile], ?_⟩
    exact List.forall_mem_cons.mpr ⟨hstart c hc, fun d hd => by simpa using List.mem_takeWhile_imp hd⟩

theorem of_beforeMark? {mark word s key rest : Text}
    (h : beforeMark? mark (word, s) = some (key, rest)) : key = word ∧ rest <:+ s := by
  obtain ⟨_, hafter, heq⟩ := Option.map_eq_some_iff.mp h
  obtain ⟨rfl, rfl⟩ := Prod.mk.inj heq
  refine ⟨rfl, List.IsSuffix.trans ?_ (Text.trimStart_suffix s)⟩
  change Text.after? mark (Text.trimStart s) = _ at hafter
  rw [← Text.append_of_after? hafter]
  exact List.suffix_append _ _

/-- A fragment that is split has a key, and its value is what the fragment ends with. -/
theorem of_split? {form : KeyForm} {fragment key rest : Text}
    (h : form.split? fragment = some (key, rest)) : IsKey key ∧ rest <:+ fragment := by
  unfold KeyForm.split? at h
  split at h
  · obtain ⟨⟨word, s⟩, hword, hmark⟩ := Option.bind_eq_some_iff.mp h
    obtain ⟨rfl, hrest⟩ := of_beforeMark? hmark
    obtain ⟨rfl, hkey⟩ := of_keyWord? (fun _ => isKeyChar_of_isKeyStart) hword
    exact ⟨hkey, hrest.trans (List.suffix_append _ _)⟩
  · obtain ⟨_, h⟩ := Option.ite_none_right_eq_some.mp h
    obtain ⟨⟨word, s⟩, hword, h⟩ := Option.bind_eq_some_iff.mp h
    obtain ⟨after, hquote, hmark⟩ := Option.bind_eq_some_iff.mp h
    obtain ⟨rfl, hrest⟩ := of_beforeMark? hmark
    obtain ⟨rfl, hkey⟩ := of_keyWord? (fun _ => isKeyChar_of_isKeyStart) hword
    have hafter : after <:+ s := by
      rw [← Text.append_of_after? hquote]
      exact List.suffix_append _ _
    refine ⟨hkey, (hrest.trans hafter).trans ?_⟩
    exact (List.suffix_append _ _).trans (List.suffix_cons _ _)
  · obtain ⟨⟨word, s⟩, hword, hmark⟩ := Option.bind_eq_some_iff.mp h
    obtain ⟨rfl, hrest⟩ := of_beforeMark? hmark
    obtain ⟨rfl, hkey⟩ := of_keyWord? (fun _ => isKeyChar_of_isIdentStart) hword
    exact ⟨hkey, (hrest.trans (List.suffix_append _ _)).trans (List.suffix_cons _ _)⟩
  · cases h

theorem isKey_normalizeKey {key : Text} (h : IsKey key) : IsKey (normalizeKey key) := by
  unfold normalizeKey
  split
  · exact h
  · intro c hc
    obtain ⟨d, hd, rfl⟩ := List.mem_map.mp hc
    split
    · decide
    · exact h d hd

theorem of_readFragment? {rules : List Rule} {members : Text → List Attribute} {fragment key : Text}
    {value : Value} (h : readFragment? rules members fragment = some ⟨key, value⟩) :
    ∃ rule ∈ rules, ∃ word rest, rule.key.split? fragment = some (word, rest)
      ∧ rule.value.read? members rest = some value ∧ key = normalizeKey word := by
  obtain ⟨rule, hmem, hread⟩ := List.exists_of_findSome?_eq_some h
  obtain ⟨⟨word, rest⟩, hsplit, hvalue⟩ := Option.bind_eq_some_iff.mp hread
  obtain ⟨value, hvalue, heq⟩ := Option.map_eq_some_iff.mp hvalue
  cases heq
  exact ⟨rule, hmem, word, rest, hsplit, hvalue, rfl⟩

theorem isKey_of_readFragment? {rules : List Rule} {members : Text → List Attribute}
    {fragment key : Text} {value : Value}
    (h : readFragment? rules members fragment = some ⟨key, value⟩) : IsKey key := by
  obtain ⟨_, _, _, _, hsplit, _, rfl⟩ := of_readFragment? h
  exact isKey_normalizeKey (of_split? hsplit).1

/-! ## Values -/

theorem infix_of_symbolName? {s name : Text} (h : symbolName? s = some name) : name <:+: s := by
  unfold symbolName? at h
  split at h
  · rename_i c cs
    obtain ⟨_, h⟩ := Option.ite_none_right_eq_some.mp h
    cases h
    exact (List.suffix_cons ':' (c :: cs)).isInfix
  · cases h

/-- All there is to say of a value that is read, as far as it holds a text of the template. -/
theorem of_read? {members : Text → List Attribute} {form : ValueForm} {s : Text} {value : Value}
    (h : form.read? members s = some value) :
    match value with
    | .string text => quotedText? (Text.trimStart s) = some text
    | .number digits => digits <:+: s
    | .symbol name => name <:+: s
    | .code code => code <:+: s
    | .group inner =>
      ∃ content, groupContent? (Text.trimStart s) = some content ∧ inner = members content
    | _ => True := by
  have hstart : Text.trimStart s <:+: s := (Text.trimStart_suffix s).isInfix
  cases form with
  | group =>
      obtain ⟨content, hcontent, rfl⟩ := Option.map_eq_some_iff.mp h
      exact ⟨content, hcontent, rfl⟩
  | string =>
      obtain ⟨text, htext, rfl⟩ := Option.map_eq_some_iff.mp h
      exact htext
  | number =>
      obtain ⟨_, h⟩ := Option.ite_none_right_eq_some.mp h
      cases h
      exact hstart
  | boolean =>
      simp only [ValueForm.read?] at h
      split at h
      · cases h
        trivial
      · obtain ⟨_, h⟩ := Option.ite_none_right_eq_some.mp h
        cases h
        trivial
  | symbol =>
      obtain ⟨name, hname, rfl⟩ := Option.map_eq_some_iff.mp h
      exact (infix_of_symbolName? hname).trans hstart
  | call =>
      obtain ⟨_, h⟩ := Option.ite_none_right_eq_some.mp h
      cases h
      exact (Text.trim_infix_self _).trans hstart
  | access =>
      obtain ⟨_, h⟩ := Option.ite_none_right_eq_some.mp h
      cases h
      exact hstart
  | code =>
      obtain ⟨code, hcode, rfl⟩ := Option.map_eq_some_iff.mp h
      obtain ⟨_, hcode⟩ := Option.ite_none_right_eq_some.mp hcode
      cases hcode
      exact Text.trim_infix_self s

/-! ## Literals -/

theorem append_of_quotedBody? {quote : Char} {s body : Text} (h : quotedBody? quote s = some body) :
    body ++ [quote] = s := by
  fun_induction quotedBody? quote s generalizing body with
  | case1 => cases h
  | case2 =>
      cases h
      rfl
  | case3 => cases h
  | case4 => cases h
  | case5 c cs hne ih =>
      obtain ⟨inner, hinner, rfl⟩ := Option.map_eq_some_iff.mp h
      rw [← ih hinner]
      rfl
  | case6 => cases h
  | case7 c cs hne hnot hc ih =>
      obtain ⟨inner, hinner, rfl⟩ := Option.map_eq_some_iff.mp h
      rw [← ih hinner]
      rfl

/-- The first character of a fragment tells in which form it can be split. -/
theorem head_of_split? {form : KeyForm} {fragment : Text} {parts : Text × Text}
    (h : form.split? fragment = some parts) :
    ∃ c ∈ fragment.head?, match form with
      | .bare => isKeyStart c = true
      | .quoted => Code.isQuote c = true
      | .symbol => c = ':' := by
  unfold KeyForm.split? at h
  split at h
  · obtain ⟨_, hword, _⟩ := Option.bind_eq_some_iff.mp h
    unfold keyWord? at hword
    split at hword
    · cases hword
    · exact ⟨_, rfl, (Option.ite_none_right_eq_some.mp hword).1⟩
  · exact ⟨_, rfl, (Option.ite_none_right_eq_some.mp h).1⟩
  · exact ⟨_, rfl, rfl⟩
  · cases h

theorem form_unique {form other : KeyForm} {fragment : Text} {parts parts' : Text × Text}
    (h : form.split? fragment = some parts) (h' : other.split? fragment = some parts') :
    form = other := by
  have hquote : ∀ c, Code.isQuote c = true → isKeyStart c = false := by
    intro c hc
    rcases Code.eq_of_isQuote hc with rfl | rfl <;> rfl
  have hcolon : isKeyStart ':' = false ∧ Code.isQuote ':' = false := ⟨rfl, rfl⟩
  obtain ⟨c, hc, hform⟩ := head_of_split? h
  obtain ⟨d, hd, hother⟩ := head_of_split? h'
  obtain rfl : c = d := Option.mem_unique hc hd
  cases form <;> cases other <;> simp_all

/-- A quoted value is a literal: a quote, the body, and the same quote again. -/
theorem of_quotedText? {s text : Text} (h : quotedText? s = some text) :
    ∃ quote body, s = quote :: (body ++ [quote]) ∧ Code.isQuote quote = true
      ∧ quotedBody? quote (body ++ [quote]) = some body := by
  unfold quotedText? at h
  split at h
  · obtain ⟨body, hbody, _⟩ := Option.map_eq_some_iff.mp h
    obtain rfl := append_of_quotedBody? hbody
    exact ⟨'"', body, rfl, rfl, hbody⟩
  · obtain ⟨body, hbody, _⟩ := Option.map_eq_some_iff.mp h
    obtain rfl := append_of_quotedBody? hbody
    exact ⟨'\'', body, rfl, rfl, hbody⟩
  · cases h

end Attribute

end Haml
