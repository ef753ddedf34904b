import Haml.Proofs.Literal
import Haml.Proofs.Slice
import Haml.Proofs.Source

/-!
# Ends of literals

A quoted value ends for its own reader at the quote that no backslash hides. The splitter and the search for
a closing brace have to end it at the same quote, or the value runs on into what stands behind it. Main
statement: they do so exactly if no backslash comes right before that quote.
-/

namespace Haml

namespace Code

variable {s : Text}

/-! ## Cuts at commas -/

/-- Behind a text with closed quotes and brackets a comma cuts. -/
theorem split_of_past? (h : past? (countBrackets ',') .code 0 s = some (.code, 0)) (t : Text) :
    split ',' (s ++ ',' :: t) = s :: split ',' t := by
  have hcut : countBrackets ',' 0 ',' = none := rfl
  obtain ⟨head, tail, hpieces, _⟩ := pieces_spec ',' .code 0 t
  rw [split, pieces_append_of_past? h, pieces_cons rfl, hcut]
  simp only
  rw [Text.foldr_consHead, List.append_nil, split, hpieces, dropEmptyLast_cons]

/-- Behind a text that is read past together with a comma, that comma does not cut. -/
theorem head?_split_ne {place : Quoting × Nat}
    (h : past? (countBrackets ',') .code 0 (s ++ [',']) = some place) (t : Text) :
    (split ',' (s ++ ',' :: t)).head? ≠ some s := by
  obtain ⟨head, tail, hpieces, _⟩ := pieces_spec ',' place.1 place.2 t
  have hsplit : pieces ',' .code 0 (s ++ ',' :: t) = (s ++ [','] ++ head) :: tail := by
    rw [List.append_cons, pieces_append_of_past? h, hpieces, Text.foldr_consHead]
  have hne : s ++ [','] ++ head ≠ s := by simp
  cases tail with
  | nil => simp [split, hsplit, dropEmptyLast]
  | cons next tail => simp [split, hsplit, dropEmptyLast_cons]

/-! ## Closing braces -/

/-- Behind a text in which one brace is open a closing brace closes it. -/
theorem closingOffset?_of_past? (h : past? (countDelimiters '{' '}') .code 0 s = some (.code, 1))
    (t : Text) : closingOffset? '{' '}' (s ++ '}' :: t) = some (Text.byteSize s) := by
  have hclose : countDelimiters '{' '}' 1 '}' = none := rfl
  rw [closingOffset?, splitAtFirstClose, splitAtClose_append_of_past? h, splitAtClose_cons rfl, hclose]
  simp

/-- Behind a text that is read past together with a brace, that brace closes nothing. -/
theorem closingOffset?_ne {place : Quoting × Nat}
    (h : past? (countDelimiters '{' '}') .code 0 (s ++ ['}']) = some place) (t : Text) :
    closingOffset? '{' '}' (s ++ '}' :: t) ≠ some (Text.byteSize s) := by
  intro hoffset
  rw [closingOffset?, splitAtFirstClose, List.append_cons, splitAtClose_append_of_past? h] at hoffset
  obtain ⟨_, hparts, hsize⟩ := Option.map_eq_some_iff.mp hoffset
  obtain ⟨parts, _, rfl⟩ := Option.map_eq_some_iff.mp hparts
  have hpos := Text.byteSize_cons_pos '}' []
  simp only [Prod.map_fst, Text.byteSize_append] at hsize
  omega

end Code

/-! ## Fragments with a quoted value -/

namespace Attribute

variable {written key value text fragment : Text} {count : Code.Count} {depth : Nat}

theorem isBody_of_isBareKey {quote : Char} (h : IsBareKey key) (hquote : Code.isQuote quote = true) :
    IsBody quote key := by
  refine IsBody.of_notMem (fun hmem => ?_) fun hmem => absurd (h.isKey '\\' hmem) (by decide)
  have hkey := h.isKey quote hmem
  rcases Code.eq_of_isQuote hquote with rfl | rfl <;> exact absurd hkey (by decide)

theorem IsWrittenKey.past? (h : IsWrittenKey written key)
    (hcount : ∀ c ∉ Code.punctuation, count depth c = some depth) :
    Code.past? count .code depth written = some (.code, depth) := by
  cases h with
  | bare hkey => exact hkey.past? hcount
  | quoted hquote hkey =>
      have hlast : key.getLast? ≠ some '\\' := fun hlast =>
        absurd (hkey.isKey '\\' (List.mem_of_getLast? hlast)) (by decide)
      rw [(isBody_of_isBareKey hkey hquote).past?_literal hquote, if_neg hlast]

/-- No literal is open behind a key. -/
theorem IsWrittenKey.foldl_next (h : IsWrittenKey written key) :
    written.foldl Code.LiteralScan.next .start = .start := by
  cases h with
  | bare hkey =>
      have hword : ∀ c ∈ written, Code.LiteralScan.start.next c = .start := by
        intro c hc
        have hchar := hkey.isKey c hc
        have hslash : c ≠ '\\' := by
          rintro rfl
          exact absurd hchar (by decide)
        simp [Code.LiteralScan.next, Code.LiteralScan.start, hslash,
          Code.isQuote_of_notMem (notMem_punctuation hchar)]
      refine List.foldlRecOn (motive := (· = Code.LiteralScan.start)) written _ rfl fun scan hscan c hc => ?_
      rw [hscan, hword c hc]
  | quoted hquote hkey => exact (isBody_of_isBareKey hkey hquote).foldl_next_literal hquote

/-- Where the readers of brackets are behind a quoted value. -/
theorem past?_quotedValue (hvalue : quotedText? value = some text) (count : Code.Count) (depth : Nat) :
    ∃ quote, Code.isQuote quote = true ∧ Code.past? count .code depth value
      = some (if value.dropLast.getLast? = some '\\' then .quoted quote false else .code, depth) := by
  obtain ⟨quote, body, rfl, hquote, hbody⟩ := exists_isBody hvalue
  have hlast : (quote :: (body ++ [quote])).dropLast.getLast? = some '\\' ↔ body.getLast? = some '\\' := by
    rw [← List.cons_append, List.dropLast_concat, List.getLast?_cons]
    cases body.getLast? <;> simp [slash_ne_quote hquote]
  exact ⟨quote, hquote, by simp only [hlast, hbody.past?_literal hquote]⟩

theorem past?_quotedFragment (hkey : IsWrittenKey written key) (hvalue : quotedText? value = some text)
    (hcount : ∀ c ∉ Code.punctuation, count depth c = some depth) :
    ∃ quote, Code.isQuote quote = true ∧ Code.past? count .code depth (written ++ ':' :: ' ' :: value)
      = some (if value.dropLast.getLast? = some '\\' then .quoted quote false else .code, depth) := by
  have hmark : Code.past? count .code depth [':', ' '] = some (.code, depth) :=
    Code.past?_of_notMem hcount (by simp [Code.punctuation])
  obtain ⟨quote, hquote, hpast⟩ := past?_quotedValue hvalue count depth
  refine ⟨quote, hquote, ?_⟩
  rw [Code.past?_trans (hkey.past? hcount)]
  exact (Code.past?_trans hmark value).trans hpast

theorem insideLiteral_quotedFragment (hkey : IsWrittenKey written key)
    (hvalue : quotedText? value = some text) :
    Code.insideLiteral (written ++ ':' :: ' ' :: value) = false := by
  obtain ⟨quote, body, rfl, hquote, hbody⟩ := exists_isBody hvalue
  have hmark : [':', ' '].foldl Code.LiteralScan.next .start = .start := rfl
  rw [Code.insideLiteral, List.foldl_append, hkey.foldl_next,
    show ':' :: ' ' :: quote :: (body ++ [quote]) = [':', ' '] ++ quote :: (body ++ [quote]) from rfl,
    List.foldl_append, hmark, hbody.foldl_next_literal hquote]
  rfl

theorem split_quotedFragment_iff (hkey : IsWrittenKey written key)
    (hvalue : quotedText? value = some text) (hfragment : fragment = written ++ ':' :: ' ' :: value)
    (rest : Text) :
    Code.split ',' (fragment ++ ',' :: rest) = fragment :: Code.split ',' rest
      ↔ value.dropLast.getLast? ≠ some '\\' := by
  obtain ⟨quote, _, hpast⟩ := past?_quotedFragment hkey hvalue fun c hc =>
    Code.countBrackets_of_notMem (c := c) hc 0
  rw [← hfragment] at hpast
  constructor
  · intro hsplit hlast
    have hcomma : Code.past? (Code.countBrackets ',') (.quoted quote false) 0 [',']
        = some ((Code.Quoting.quoted quote false).next ',', 0) := rfl
    rw [if_pos hlast] at hpast
    exact Code.head?_split_ne ((Code.past?_trans hpast _).trans hcomma) rest (by rw [hsplit, List.head?_cons])
  · intro hlast
    rw [if_neg hlast] at hpast
    exact Code.split_of_past? hpast rest

theorem closingOffset?_quotedFragment_iff (hkey : IsWrittenKey written key)
    (hvalue : quotedText? value = some text) (hfragment : fragment = written ++ ':' :: ' ' :: value)
    (rest : Text) :
    Code.closingOffset? '{' '}' ('{' :: ' ' :: (fragment ++ ' ' :: '}' :: rest))
        = some (Text.byteSize ('{' :: ' ' :: (fragment ++ [' '])))
      ↔ value.dropLast.getLast? ≠ some '\\' := by
  obtain ⟨quote, hquote, hpast⟩ := past?_quotedFragment hkey hvalue fun c hc =>
    Code.countDelimiters_of_notMem (c := c) hc 1
  rw [← hfragment] at hpast
  have hopen : Code.past? (Code.countDelimiters '{' '}') .code 0 ['{', ' '] = some (.code, 1) := rfl
  have hgroup : ∀ t, Code.past? (Code.countDelimiters '{' '}') .code 0 (['{', ' '] ++ (fragment ++ t))
      = Code.past? (Code.countDelimiters '{' '}')
          (if value.dropLast.getLast? = some '\\' then .quoted quote false else .code) 1 t := fun t => by
    rw [Code.past?_trans hopen, Code.past?_trans hpast]
  have htext : '{' :: ' ' :: (fragment ++ ' ' :: '}' :: rest)
      = ['{', ' '] ++ (fragment ++ [' ']) ++ '}' :: rest := by simp
  rw [htext]
  constructor
  · intro hclose hlast
    have hinside : Code.past? (Code.countDelimiters '{' '}') (.quoted quote false) 1 [' ', '}']
        = some (.quoted quote false, 1) := by
      rcases Code.eq_of_isQuote hquote with rfl | rfl <;> rfl
    rw [if_pos hlast] at hgroup
    have hpassed : Code.past? (Code.countDelimiters '{' '}') .code 0
        (['{', ' '] ++ (fragment ++ [' ']) ++ ['}']) = some (.quoted quote false, 1) := by
      simpa using (hgroup [' ', '}']).trans hinside
    exact Code.closingOffset?_ne hpassed rest hclose
  · intro hlast
    rw [if_neg hlast] at hgroup
    exact Code.closingOffset?_of_past? (hgroup [' ']) rest

/--
A fragment with a quoted value is read as that value, and no literal is open behind it for the reader of
comments. The splitter cuts at a comma behind it, and the closing brace behind it is found, exactly if no
backslash stands before the value's last quote.
-/
theorem ends_quotedFragment_iff (hkey : IsWrittenKey written key) (hvalue : quotedText? value = some text)
    (hfragment : fragment = written ++ ':' :: ' ' :: value) (rest : Text) :
    ofFragment? fragment = some ⟨normalizeKey key, .string text⟩
      ∧ Code.insideLiteral fragment = false
      ∧ (Code.split ',' (fragment ++ ',' :: rest) = fragment :: Code.split ',' rest
          ↔ value.dropLast.getLast? ≠ some '\\')
      ∧ (Code.closingOffset? '{' '}' ('{' :: ' ' :: (fragment ++ ' ' :: '}' :: rest))
            = some (Text.byteSize ('{' :: ' ' :: (fragment ++ [' '])))
          ↔ value.dropLast.getLast? ≠ some '\\') := by
  refine ⟨?_, ?_, split_quotedFragment_iff hkey hvalue hfragment rest,
    closingOffset?_quotedFragment_iff hkey hvalue hfragment rest⟩
  · rw [hfragment]
    exact hkey.ofFragment? hvalue
  · rw [hfragment]
    exact insideLiteral_quotedFragment hkey hvalue

/-- Hidden quotes and brackets in a value do not end it. -/
theorem ends_quotedFragment_hidden :
    Code.split ',' "'data-x': \"a\\\\b, \\\"\x7d\", id: 'x'".toList
        = ["'data-x': \"a\\\\b, \\\"\x7d\"".toList, " id: 'x'".toList]
      ∧ Code.closingOffset? '{' '}' "\x7b 'data-x': \"a\\\\b, \\\"\x7d\" \x7d id: 'x'".toList
        = some (Text.byteSize "\x7b 'data-x': \"a\\\\b, \\\"\x7d\" ".toList) := by
  have hkey : IsWrittenKey ('\'' :: ("data-x".toList ++ ['\''])) "data-x".toList := .quoted rfl (by decide)
  have hvalue : quotedText? "\"a\\\\b, \\\"\x7d\"".toList = some "a\\b, \"\x7d".toList := by decide +kernel
  obtain ⟨_, _, hsplit, hclose⟩ := ends_quotedFragment_iff hkey hvalue rfl " id: 'x'".toList
  exact ⟨hsplit.mpr (by decide), hclose.mpr (by decide)⟩

/-- A value that ends in a backslash goes on for the splitter over the values behind it. -/
theorem not_split_of_backslash :
    quotedText? "'a\\\\'".toList = some "a\\".toList
      ∧ Code.split ',' "title: 'a\\\\', id: 'x'".toList
        ≠ "title: 'a\\\\'".toList :: Code.split ',' " id: 'x'".toList
      ∧ Code.closingOffset? '{' '}' "\x7b title: 'a\\\\' \x7d id: 'x'".toList
        ≠ some (Text.byteSize "\x7b title: 'a\\\\' ".toList) := by
  decide +kernel

end Attribute

end Haml
