import Haml.Code.Comment
import Haml.Proofs.Fragment
import Haml.Proofs.Reading

/-!
# Bodies of literals

A body is what may stand between the quotes of a literal: ordinary characters, and pairs of a backslash and
the character that it hides. Bodies are what the reader of values accepts. The reader of comments takes the
same pairs, so that it ends a literal where its value ends. The readers of brackets look at one character
only, so that they do not see the end of a literal whose body ends in a backslash.
-/

namespace Haml

namespace Attribute

variable {quote : Char} {body s t : Text}

/-- What stands between two quotes of a literal. -/
inductive IsBody (quote : Char) : Text → Prop where
  | nil : IsBody quote []
  | char {c : Char} {cs : Text} : c ≠ quote → c ≠ '\\' → IsBody quote cs → IsBody quote (c :: cs)
  /-- A backslash hides any character that stands on its line. -/
  | pair {c : Char} {cs : Text} : c ≠ '\n' → IsBody quote cs → IsBody quote ('\\' :: c :: cs)

theorem slash_ne_quote (h : Code.isQuote quote = true) : quote ≠ '\\' := by
  rintro rfl
  cases h

/-! ## Bodies put together -/

theorem IsBody.append (hs : IsBody quote s) (ht : IsBody quote t) : IsBody quote (s ++ t) := by
  induction hs with
  | nil => exact ht
  | char hquote hslash _ ih => exact .char hquote hslash ih
  | pair hline _ ih => exact .pair hline ih

theorem IsBody.of_notMem (hquote : quote ∉ s) (hslash : '\\' ∉ s) : IsBody quote s := by
  induction s with
  | nil => exact .nil
  | cons c cs ih =>
      obtain ⟨hc, hquote⟩ := List.ne_and_not_mem_of_not_mem_cons hquote
      obtain ⟨hd, hslash⟩ := List.ne_and_not_mem_of_not_mem_cons hslash
      exact .char hc.symm hd.symm (ih hquote hslash)

/-- No escape goes over the end of a body. -/
theorem IsBody.unescape_append (hs : IsBody quote s) (t : Text) :
    unescape (s ++ t) = unescape s ++ unescape t := by
  induction hs with
  | nil => rfl
  | char _ hslash _ ih =>
      have hcons : ∀ cs, unescape (_ :: cs) = _ :: unescape cs :=
        fun cs => unescape_cons fun heq => absurd heq hslash
      rw [List.cons_append, hcons, hcons, ih, List.cons_append]
  | pair _ _ ih =>
      rw [List.cons_append, List.cons_append, unescape, unescape]
      split <;> rw [ih] <;> rfl

theorem unescape_of_notMem (h : '\\' ∉ s) : unescape s = s := by
  induction s with
  | nil => rfl
  | cons c cs ih =>
      obtain ⟨hc, hcs⟩ := List.ne_and_not_mem_of_not_mem_cons h
      rw [unescape_cons fun heq => absurd heq.symm hc, ih hcs]

/-! ## Values -/

theorem IsBody.quotedBody? (h : IsBody quote body) : quotedBody? quote (body ++ [quote]) = some body := by
  induction h with
  | nil => simp [Attribute.quotedBody?]
  | char hc hslash _ ih =>
      rw [List.cons_append, Attribute.quotedBody?, if_neg hc, ih]
      · rfl
      · exact fun heq => by simp at heq
      · exact fun _ _ heq _ => hslash heq
  | pair hc _ ih =>
      rw [List.cons_append, List.cons_append, Attribute.quotedBody?, if_neg hc, ih]
      rfl

theorem isBody_of_quotedBody? (h : quotedBody? quote s = some body) : IsBody quote body := by
  fun_induction Attribute.quotedBody? quote s generalizing body with
  | case1 => cases h
  | case2 =>
      cases h
      exact .nil
  | case3 => cases h
  | case4 => cases h
  | case5 c cs hline ih =>
      obtain ⟨inner, hinner, rfl⟩ := Option.map_eq_some_iff.mp h
      exact .pair hline (ih hinner)
  | case6 => cases h
  | case7 c cs hne hnot hc ih =>
      obtain ⟨inner, hinner, rfl⟩ := Option.map_eq_some_iff.mp h
      refine .char hc ?_ (ih hinner)
      rintro rfl
      cases cs with
      | nil => exact hne rfl
      | cons d ds => exact hnot d ds rfl rfl

/-- A quoted value is a body between two equal quotes. -/
theorem exists_isBody {value text : Text} (h : quotedText? value = some text) :
    ∃ quote body, value = quote :: (body ++ [quote]) ∧ Code.isQuote quote = true ∧ IsBody quote body := by
  obtain ⟨quote, body, hvalue, hquote, hbody⟩ := of_quotedText? h
  exact ⟨quote, body, hvalue, hquote, isBody_of_quotedBody? hbody⟩

/-! ## Code behind literals -/

/-- For the readers of brackets only the last character of a body tells whether the next quote is hidden. -/
theorem IsBody.past? (h : IsBody quote body) (hquote : Code.isQuote quote = true) (count : Code.Count)
    (depth : Nat) (escaped : Bool) :
    Code.past? count (.quoted quote escaped) depth body
      = some (.quoted quote (body.getLast?.elim escaped (· = '\\')), depth) := by
  induction h generalizing escaped with
  | nil => rfl
  | @char c cs hc _ _ ih =>
      have hnext : (Code.Quoting.quoted quote escaped).next c = .quoted quote (c = '\\') := by
        simp [Code.Quoting.next, hc]
      rw [Code.past?, hnext, ih, List.getLast?_cons]
      cases cs.getLast? <;> rfl
  | @pair c cs _ _ ih =>
      have hslash : (Code.Quoting.quoted quote escaped).next '\\' = .quoted quote true := by
        simp [Code.Quoting.next, (slash_ne_quote hquote).symm]
      have hnext : (Code.Quoting.quoted quote true).next c = .quoted quote (c = '\\') := by
        simp [Code.Quoting.next]
      rw [Code.past?, hslash, Code.past?, hnext, ih, List.getLast?_cons, List.getLast?_cons]
      cases cs.getLast? <;> rfl

/-- A literal is read past, but for one that seems to go on behind its last quote. -/
theorem IsBody.past?_literal (h : IsBody quote body) (hquote : Code.isQuote quote = true)
    (count : Code.Count) (depth : Nat) :
    Code.past? count .code depth (quote :: (body ++ [quote]))
      = some (if body.getLast? = some '\\' then .quoted quote false else .code, depth) := by
  rw [Code.past?, if_pos hquote, Code.past?_trans (h.past? hquote count depth false), Code.past?, Code.past?]
  cases hlast : body.getLast? with
  | none => simp [Code.Quoting.next]
  | some c => by_cases hc : c = '\\' <;> simp [Code.Quoting.next, hc, slash_ne_quote hquote]

theorem IsBody.foldl_next (h : IsBody quote body) :
    body.foldl Code.LiteralScan.next ⟨some quote, false⟩ = ⟨some quote, false⟩ := by
  induction h with
  | nil => rfl
  | char hc hslash _ ih => simpa [Code.LiteralScan.next, hc, hslash] using ih
  | pair _ _ ih => simpa [Code.LiteralScan.next] using ih

/-- Behind a literal no literal is open for the reader of comments. -/
theorem IsBody.foldl_next_literal (h : IsBody quote body) (hquote : Code.isQuote quote = true) :
    (quote :: (body ++ [quote])).foldl Code.LiteralScan.next .start = .start := by
  have hopen : Code.LiteralScan.start.next quote = ⟨some quote, false⟩ := by
    simp [Code.LiteralScan.next, Code.LiteralScan.start, hquote, slash_ne_quote hquote]
  rw [List.foldl_cons, hopen, List.foldl_append, h.foldl_next]
  simp [Code.LiteralScan.next, Code.LiteralScan.start, slash_ne_quote hquote]

/-! ## Hidden characters -/

/-- A text as the body of a literal: a backslash hides each quote of its kind and each backslash. -/
def hide (quote : Char) (s : Text) : Text :=
  s.flatMap fun c => if c = quote ∨ c = '\\' then ['\\', c] else [c]

theorem hide_cons (quote c : Char) (s : Text) :
    hide quote (c :: s) = (if c = quote ∨ c = '\\' then ['\\', c] else [c]) ++ hide quote s := rfl

theorem isBody_hide (hquote : Code.isQuote quote = true) (s : Text) : IsBody quote (hide quote s) := by
  induction s with
  | nil => exact .nil
  | cons c cs ih =>
      rw [hide_cons]
      split
      · rename_i hspecial
        have hline : c ≠ '\n' := by
          rintro rfl
          rcases hspecial with rfl | hslash
          · cases hquote
          · exact absurd hslash (by decide)
        exact .pair hline ih
      · rename_i hordinary
        obtain ⟨hc, hslash⟩ := not_or.mp hordinary
        exact .char hc hslash ih

theorem isHidden_of_isQuote (h : Code.isQuote quote = true) : isHidden quote = true := by
  rcases Code.eq_of_isQuote h with rfl | rfl <;> rfl

theorem unescape_hide (hquote : Code.isQuote quote = true) (s : Text) : unescape (hide quote s) = s := by
  induction s with
  | nil => rfl
  | cons c cs ih =>
      rw [hide_cons]
      split
      · rename_i hspecial
        have hhidden : isHidden c = true := by
          rcases hspecial with rfl | rfl
          · exact isHidden_of_isQuote hquote
          · rfl
        rw [List.cons_append, List.cons_append, unescape, if_pos hhidden, List.nil_append, ih]
      · rename_i hordinary
        rw [List.singleton_append, unescape_cons fun heq => absurd (.inr heq) hordinary, ih]

theorem getLast?_hide (quote : Char) (s : Text) : (hide quote s).getLast? = s.getLast? := by
  induction s with
  | nil => rfl
  | cons c cs ih =>
      rw [hide_cons, List.getLast?_append, ih, List.getLast?_cons]
      split <;> cases cs.getLast? <;> rfl

end Attribute

end Haml
