import Haml.Proofs.Quoted

/-!
# Constant attributes

Attributes whose values are strings, integers, symbols, booleans, or groups of strings, and how a template
writes them: a key, a colon and a value, with commas between attributes. Main statement: what is written in
this way is read as the attributes that it was written for, under their normalised keys.
-/

namespace Haml

/-! ## Characters of words -/

namespace Text

theorem isWord_of_isDigit {c : Char} (h : isDigit c = true) : isWord c = true := by
  unfold isDigit inClass at h
  unfold isWord inClass
  split_ifs at h ⊢ with hlow
  · simp [Char.isAlphanum, h]
  · obtain ⟨hdigit, hless⟩ := Bool.and_eq_true_iff.mp h
    rw [Bool.and_eq_true_iff]
    exact ⟨List.any_eq_true.mpr ⟨Property.decimalDigit, by simp, by simpa using hdigit⟩, hless⟩

/-- No blank is a word character. -/
theorem isBlank_of_isWord {c : Char} (h : isWord c = true) : isBlank c = false := by
  have hapart : ∀ blanks ∈ Property.whiteSpace, ∀ table ∈ [Property.alphabetic, Property.mark,
      Property.decimalDigit, Property.connector, Property.joinControl], ∀ words ∈ table,
        words.2 < blanks.1 ∨ blanks.2 < words.1 := by
    decide +kernel
  by_cases hlow : c.toNat < 0x80
  · exact of_ascii (P := fun c => isWord c = true → isBlank c = false) (by decide +kernel) hlow h
  · rw [isWord, inClass, if_neg hlow] at h
    obtain ⟨hcovers, _⟩ := Bool.and_eq_true_iff.mp h
    by_contra hblank
    rw [isBlank, inClass, if_neg hlow] at hblank
    obtain ⟨blanks, hblanks, hin⟩ :
        ∃ blanks ∈ Property.whiteSpace, blanks.1 ≤ c.toNat ∧ c.toNat ≤ blanks.2 := by
      simpa [Property.covers] using hblank
    obtain ⟨table, htable, hcovers⟩ := List.any_eq_true.mp hcovers
    obtain ⟨words, hwords, hle⟩ := List.any_eq_true.mp hcovers
    obtain ⟨hlow, hhigh⟩ := Bool.and_eq_true_iff.mp hle
    have hword : words.1 ≤ c.toNat ∧ c.toNat ≤ words.2 :=
      ⟨of_decide_eq_true hlow, of_decide_eq_true hhigh⟩
    have hdisjoint := hapart blanks hblanks table htable words hwords
    omega

end Text

namespace Code

/-! ## Ordinary characters -/

/-- The characters that a reader of attribute texts looks for. -/
def punctuation : List Char := ['"', '\'', '(', ')', '[', ']', '{', '}', ',']

theorem isQuote_of_notMem {c : Char} (h : c ∉ punctuation) : isQuote c = false := by
  simp only [punctuation, List.mem_cons, List.not_mem_nil, or_false, not_or] at h
  simp [isQuote, h]

theorem countBrackets_of_notMem {c : Char} (h : c ∉ punctuation) (depth : Nat) :
    countBrackets ',' depth c = some depth := by
  simp only [punctuation, List.mem_cons, List.not_mem_nil, or_false, not_or] at h
  simp [countBrackets, isOpening, isClosing, h]

theorem countDelimiters_of_notMem {c : Char} (h : c ∉ punctuation) (depth : Nat) :
    countDelimiters '{' '}' depth c = some depth := by
  simp only [punctuation, List.mem_cons, List.not_mem_nil, or_false, not_or] at h
  simp [countDelimiters, h]

variable {count : Count} {depth : Nat}

/-- A text without any of the characters that are looked for is read past. -/
theorem past?_of_notMem (hcount : ∀ c ∉ punctuation, count depth c = some depth) {s : Text}
    (h : ∀ c ∈ s, c ∉ punctuation) : past? count .code depth s = some (.code, depth) :=
  past?_of_plain (fun c hc => isQuote_of_notMem (h c hc)) fun c hc => hcount c (h c hc)

theorem past?_join {separator : Text} (hseparator : past? count .code depth separator = some (.code, depth))
    {parts : List Text} (h : ∀ part ∈ parts, past? count .code depth part = some (.code, depth)) :
    past? count .code depth (Text.join separator parts) = some (.code, depth) := by
  induction parts with
  | nil => rfl
  | cons first rest ih =>
      obtain ⟨hfirst, hrest⟩ := List.forall_mem_cons.mp h
      cases rest with
      | nil => simpa [Text.join] using hfirst
      | cons second rest =>
          rw [Text.join_cons_cons, past?_trans hfirst, past?_trans hseparator]
          exact ih hrest

end Code

/-! ## Writing -/

namespace Attribute

/-- The body of a single-quoted literal: a backslash hides each quote of its kind and each backslash. -/
def escape : Text → Text
  | [] => []
  | c :: cs => if c = '\'' ∨ c = '\\' then '\\' :: c :: escape cs else c :: escape cs

/-- A text as a single-quoted literal. -/
def quote (s : Text) : Text := '\'' :: (escape s ++ ['\''])

end Attribute

mutual

/-- An attribute as a template writes it. -/
def Attribute.source : Attribute → Text
  | ⟨key, value⟩ => key ++ ':' :: ' ' :: value.source

def Value.source : Value → Text
  | .string text => Attribute.quote text
  | .number digits => digits
  | .symbol name => ':' :: name
  | .boolean true => "true".toList
  | .boolean false => "false".toList
  | .code code => code
  | .group members => '{' :: ' ' :: (Text.join ", ".toList (Attribute.sources members) ++ [' ', '}'])

def Attribute.sources : List Attribute → List Text
  | [] => []
  | first :: rest => first.source :: Attribute.sources rest

end

mutual

/-- An attribute under its normalised key, and so are the members of a group. -/
def Attribute.normalized : Attribute → Attribute
  | ⟨key, value⟩ => ⟨Attribute.normalizeKey key, value.normalized⟩

def Value.normalized : Value → Value
  | .group members => .group (Attribute.allNormalized members)
  | value => value

def Attribute.allNormalized : List Attribute → List Attribute
  | [] => []
  | first :: rest => first.normalized :: Attribute.allNormalized rest

end

namespace Attribute

theorem sources_eq_map (attributes : List Attribute) : sources attributes = attributes.map source := by
  induction attributes with
  | nil => rfl
  | cons first rest ih => rw [sources, ih, List.map_cons]

theorem forall_mem_sources {p : Text → Prop} {attributes : List Attribute}
    (h : ∀ attr ∈ attributes, p attr.source) : ∀ s ∈ sources attributes, p s := by
  rw [sources_eq_map]
  exact List.forall_mem_map.mpr h

theorem allNormalized_eq_map (attributes : List Attribute) :
    allNormalized attributes = attributes.map normalized := by
  induction attributes with
  | nil => rfl
  | cons first rest ih => rw [allNormalized, ih, List.map_cons]

/-- A key that needs no quotes: a letter, underscore or hyphen, then word characters and hyphens. -/
structure IsBareKey (key : Text) : Prop where
  head : ∃ c ∈ key.head?, isKeyStart c = true
  isKey : IsKey key

/-- A text that a single-quoted literal holds: it is one line, and no backslash comes before the quote. -/
structure IsQuotable (text : Text) : Prop where
  newline_notMem : '\n' ∉ text
  last_ne : text.getLast? ≠ some '\\'

theorem isBareKey_iff {key : Text} :
    IsBareKey key ↔ key.head?.any isKeyStart = true ∧ key.all isKeyChar = true := by
  constructor
  · rintro ⟨⟨c, hc, hstart⟩, hkey⟩
    exact ⟨by rw [hc, Option.any_some, hstart], List.all_eq_true.mpr hkey⟩
  · rintro ⟨hhead, hkey⟩
    cases key with
    | nil => cases hhead
    | cons c cs => exact ⟨⟨c, rfl, hhead⟩, List.all_eq_true.mp hkey⟩

instance (key : Text) : Decidable (IsBareKey key) := decidable_of_iff' _ isBareKey_iff

instance (text : Text) : Decidable (IsQuotable text) :=
  decidable_of_iff ('\n' ∉ text ∧ text.getLast? ≠ some '\\')
    ⟨fun h => ⟨h.1, h.2⟩, fun h => ⟨h.newline_notMem, h.last_ne⟩⟩

/-- A string under a bare key. -/
inductive IsConstantString : Attribute → Prop where
  | intro {key text : Text} : IsBareKey key → IsQuotable text → IsConstantString ⟨key, .string text⟩

end Attribute

/-- A value that is no code. Integers may have a sign, and the name of a symbol one mark at its end. -/
inductive Value.IsConstant : Value → Prop where
  | string {text : Text} : Attribute.IsQuotable text → IsConstant (.string text)
  | number {sign digits : Text} : sign ∈ [[], ['-']] → digits ≠ [] →
      (∀ c ∈ digits, Text.isDigit c = true) → IsConstant (.number (sign ++ digits))
  | symbol {first : Char} {word mark : Text} : Text.isIdentStart first = true →
      (∀ c ∈ word, Text.isWord c = true) → mark ∈ [[], ['?'], ['!']] →
      IsConstant (.symbol (first :: (word ++ mark)))
  | boolean (value : Bool) : IsConstant (.boolean value)
  | group {members : List Attribute} : (∀ member ∈ members, member.IsConstantString) →
      IsConstant (.group members)

/-- A constant under a bare key. -/
structure Attribute.IsConstant (attr : Attribute) : Prop where
  key : IsBareKey attr.key
  value : attr.value.IsConstant

namespace Attribute

/-! ## Fragments between commas -/

/-- A trimmed text in which quotes and brackets are closed and all commas are inside of them. -/
structure IsFragment (s : Text) : Prop where
  ne_nil : s ≠ []
  trim_eq : Text.trim s = s
  past : Code.past? (Code.countBrackets ',') .code 0 s = some (.code, 0)

theorem fragments_eq (s : Text) :
    fragments s = ((Code.pieces ',' .code 0 s).map Text.trim).filter (· != []) := by
  rw [fragments, Code.split, Code.dropEmptyLast]
  split
  · rename_i hlast
    obtain ⟨front, hfront⟩ := List.getLast?_eq_some_iff.mp hlast
    rw [hfront, List.dropLast_concat, List.map_append, List.filter_append]
    exact (List.append_nil _).symm
  · rfl

theorem past?_blanks {blanks : Text} (h : ∀ b ∈ blanks, Text.isBlank b = true) :
    Code.past? (Code.countBrackets ',') .code 0 blanks = some (.code, 0) := by
  have hpunctuation : (Code.punctuation.all fun c => !Text.isBlank c) = true := by decide
  exact Code.past?_of_notMem (fun c hc => Code.countBrackets_of_notMem hc 0)
    fun c hc => notMem_of_all hpunctuation (h c hc)

theorem fragments_of_past? {s part : Text}
    (hpast : Code.past? (Code.countBrackets ',') .code 0 s = some (.code, 0))
    (htrim : Text.trim s = part) : fragments s = [part].filter (· != []) := by
  have hpieces := Code.pieces_append_of_past? hpast []
  rw [List.append_nil, Code.pieces, Text.foldr_consHead, List.append_nil] at hpieces
  rw [fragments_eq, hpieces, List.map_singleton, htrim]

theorem fragments_comma {s part : Text}
    (hpast : Code.past? (Code.countBrackets ',') .code 0 s = some (.code, 0))
    (htrim : Text.trim s = part) (rest : Text) :
    fragments (s ++ ',' :: rest) = [part].filter (· != []) ++ fragments rest := by
  have hcut : Code.countBrackets ',' 0 ',' = none := rfl
  rw [fragments_eq, Code.pieces_append_of_past? hpast, Code.pieces_cons rfl, hcut]
  simp only
  rw [Text.foldr_consHead, List.append_nil, List.map_cons, htrim, ← List.singleton_append,
    List.filter_append, ← fragments_eq]

/-- Fragments that are joined with commas are found again, whatever blanks are around. -/
theorem fragments_join {parts : List Text} (h : ∀ part ∈ parts, IsFragment part) {lead trail : Text}
    (hlead : ∀ b ∈ lead, Text.isBlank b = true) (htrail : ∀ b ∈ trail, Text.isBlank b = true) :
    fragments (lead ++ (Text.join ", ".toList parts ++ trail)) = parts := by
  -- Between two commas stand blanks, a fragment, and blanks; the induction is on the fragments.
  have hpadded : ∀ {lead part trail : Text}, (∀ b ∈ lead, Text.isBlank b = true) → IsFragment part →
      (∀ b ∈ trail, Text.isBlank b = true) →
      Code.past? (Code.countBrackets ',') .code 0 (lead ++ (part ++ trail)) = some (.code, 0)
        ∧ Text.trim (lead ++ (part ++ trail)) = part := by
    intro lead part trail hlead hpart htrail
    refine ⟨?_, Text.trim_padded hlead htrail hpart.ne_nil hpart.trim_eq⟩
    rw [Code.past?_trans (past?_blanks hlead), Code.past?_trans hpart.past]
    exact past?_blanks htrail
  induction parts generalizing lead with
  | nil =>
      have hblanks : ∀ b ∈ lead ++ trail, Text.isBlank b = true := by
        simpa [or_imp, forall_and] using And.intro hlead htrail
      exact fragments_of_past? (past?_blanks hblanks) (Text.trim_eq_nil_iff.mpr hblanks)
  | cons first rest ih =>
      obtain ⟨hfirst, hrest⟩ := List.forall_mem_cons.mp h
      have hkeep : [first].filter (· != []) = [first] := by simp [hfirst.ne_nil]
      cases rest with
      | nil =>
          obtain ⟨hpast, htrim⟩ := hpadded hlead hfirst htrail
          rw [Text.join, List.intercalate_singleton, fragments_of_past? hpast htrim, hkeep]
      | cons second rest =>
          obtain ⟨hpast, htrim⟩ := hpadded hlead hfirst (List.forall_mem_nil _)
          have hcut : lead ++ (Text.join ", ".toList (first :: second :: rest) ++ trail)
              = (lead ++ (first ++ []))
                ++ ',' :: ([' '] ++ (Text.join ", ".toList (second :: rest) ++ trail)) := by
            rw [Text.join_cons_cons]
            simp
          rw [hcut, fragments_comma hpast htrim, hkeep, ih hrest Text.isBlank_of_mem_space]
          rfl

/-! ## What is written for a constant -/

variable {key text : Text} {value : Value}

theorem notMem_punctuation {c : Char} (h : isKeyChar c = true) : c ∉ Code.punctuation :=
  notMem_of_all (by decide) h

theorem isBlank_of_isKeyChar {c : Char} (h : isKeyChar c = true) : Text.isBlank c = false := by
  rcases Bool.or_eq_true_iff.mp h with hword | hhyphen
  · exact Text.isBlank_of_isWord hword
  · rw [of_decide_eq_true hhyphen]
    decide

theorem isKeyChar_of_isDigit {c : Char} (h : Text.isDigit c = true) : isKeyChar c = true := by
  simp [isKeyChar, Text.isWord_of_isDigit h]

theorem escape_eq_hide (s : Text) : escape s = hide '\'' s := by
  induction s with
  | nil => rfl
  | cons c cs ih =>
      rw [escape, hide_cons, ih]
      split <;> rfl

theorem isBody_escape (s : Text) : IsBody '\'' (escape s) := by
  rw [escape_eq_hide]
  exact isBody_hide rfl s

theorem past?_quote (count : Code.Count) (depth : Nat) (h : IsQuotable text) :
    Code.past? count .code depth (quote text) = some (.code, depth) := by
  have hlast : (escape text).getLast? ≠ some '\\' := by
    rw [escape_eq_hide, getLast?_hide]
    exact h.last_ne
  rw [quote, (isBody_escape text).past?_literal rfl, if_neg hlast]

theorem quotedText?_quote (text : Text) : quotedText? (quote text) = some text := by
  rw [quote, quotedText?, (isBody_escape text).quotedBody?, Option.map_some, escape_eq_hide, unescape_hide rfl]

theorem IsBareKey.past? (h : IsBareKey key) {count : Code.Count} {depth : Nat}
    (hcount : ∀ c ∉ Code.punctuation, count depth c = some depth) :
    Code.past? count .code depth key = some (.code, depth) :=
  Code.past?_of_notMem hcount fun c hc => notMem_punctuation (h.isKey c hc)

/-- A reading that does not count ordinary characters gets past a string and its key at any depth. -/
theorem IsConstantString.past? {attr : Attribute} (h : attr.IsConstantString) {count : Code.Count}
    {depth : Nat} (hcount : ∀ c ∉ Code.punctuation, count depth c = some depth) :
    Code.past? count .code depth attr.source = some (.code, depth) := by
  obtain ⟨hkey, htext⟩ := h
  have hmark : Code.past? count .code depth [':', ' '] = some (.code, depth) :=
    Code.past?_of_notMem hcount (by simp [Code.punctuation])
  rw [source, Code.past?_trans (hkey.past? hcount)]
  exact (Code.past?_trans hmark _).trans (past?_quote count depth htext)

theorem past?_sources {members : List Attribute} (h : ∀ member ∈ members, member.IsConstantString)
    {count : Code.Count} {depth : Nat} (hcount : ∀ c ∉ Code.punctuation, count depth c = some depth)
    (hcomma : count depth ',' = some depth) :
    Code.past? count .code depth (Text.join ", ".toList (sources members)) = some (.code, depth) := by
  have hseparator : Code.past? count .code depth ", ".toList = some (.code, depth) := by
    rw [show ", ".toList = ',' :: [' '] from rfl, Code.past?, hcomma]
    exact Code.past?_of_notMem hcount (by simp [Code.punctuation])
  exact Code.past?_join hseparator (forall_mem_sources fun member hmember => (h member hmember).past? hcount)

theorem isKeyChar_of_mem_number {sign digits : Text} (hsign : sign ∈ [[], ['-']])
    (hdigits : ∀ c ∈ digits, Text.isDigit c = true) : ∀ c ∈ sign ++ digits, isKeyChar c = true := by
  intro c hc
  rcases List.mem_append.mp hc with hc | hc
  · rcases (by simpa using hsign : sign = [] ∨ sign = ['-']) with rfl | rfl
    · cases hc
    · rw [List.mem_singleton.mp hc]
      decide
  · exact isKeyChar_of_isDigit (hdigits c hc)

theorem isKeyChar_of_mem_symbol {first : Char} {word : Text} (hfirst : Text.isIdentStart first = true)
    (hword : ∀ c ∈ word, Text.isWord c = true) : ∀ c ∈ first :: word, isKeyChar c = true :=
  List.forall_mem_cons.mpr ⟨isKeyChar_of_isIdentStart hfirst, fun c hc => by simp [isKeyChar, hword c hc]⟩

end Attribute

namespace Value.IsConstant

open Attribute

variable {value : Value}

theorem past? (h : value.IsConstant) :
    Code.past? (Code.countBrackets ',') .code 0 value.source = some (.code, 0) := by
  have hzero := fun c hc => Code.countBrackets_of_notMem (c := c) hc 0
  cases h with
  | string htext => exact past?_quote _ 0 htext
  | number hsign _ hdigits =>
      exact Code.past?_of_notMem hzero fun c hc =>
        notMem_punctuation (isKeyChar_of_mem_number hsign hdigits c hc)
  | @symbol first word mark hfirst hword hmark =>
      have hmark' : ∀ c ∈ mark, c ∉ Code.punctuation := by
        rcases (by simpa using hmark : mark = [] ∨ mark = ['?'] ∨ mark = ['!']) with rfl | rfl | rfl <;>
          simp [Code.punctuation]
      refine Code.past?_of_notMem hzero (List.forall_mem_cons.mpr ⟨by decide, fun c hc => ?_⟩)
      rcases List.mem_append.mp (List.cons_append ▸ hc : c ∈ first :: word ++ mark) with hc | hc
      · exact notMem_punctuation (isKeyChar_of_mem_symbol hfirst hword c hc)
      · exact hmark' c hc
  | boolean value => cases value <;> rfl
  | @group members hmembers =>
      have hone := fun c hc => Code.countBrackets_of_notMem (c := c) hc 1
      have hinner := past?_sources hmembers hone rfl
      have hopen : Code.past? (Code.countBrackets ',') .code 0 ['{', ' '] = some (.code, 1) := rfl
      have hclose : Code.past? (Code.countBrackets ',') .code 1 [' ', '}'] = some (.code, 0) := rfl
      have hrest := (Code.past?_trans hinner [' ', '}']).trans hclose
      exact (Code.past?_trans hopen _).trans hrest

/-- What is written ends with a character that is no blank. -/
theorem exists_concat (h : value.IsConstant) :
    ∃ before c, value.source = before ++ [c] ∧ Text.isBlank c = false := by
  have hword : ∀ {s : Text}, s ≠ [] → (∀ c ∈ s, isKeyChar c = true) →
      ∃ before c, s = before ++ [c] ∧ Text.isBlank c = false := fun hne hs =>
    ⟨_, _, (List.dropLast_append_getLast hne).symm, isBlank_of_isKeyChar (hs _ (List.getLast_mem hne))⟩
  cases h with
  | @string text _ => exact ⟨'\'' :: escape text, '\'', rfl, by decide⟩
  | number hsign hne hdigits =>
      exact hword (List.append_ne_nil_of_right_ne_nil _ hne) (isKeyChar_of_mem_number hsign hdigits)
  | @symbol first word mark hfirst hword' hmark =>
      rcases (by simpa using hmark : mark = [] ∨ mark = ['?'] ∨ mark = ['!']) with rfl | rfl | rfl
      · obtain ⟨before, c, heq, hblank⟩ :=
          hword (List.cons_ne_nil first word) (isKeyChar_of_mem_symbol hfirst hword')
        exact ⟨':' :: before, c, by rw [source, List.append_nil, heq, List.cons_append], hblank⟩
      · exact ⟨':' :: first :: word, '?', rfl, by decide⟩
      · exact ⟨':' :: first :: word, '!', rfl, by decide⟩
  | boolean value =>
      cases value with
      | true => exact ⟨"tru".toList, 'e', rfl, by decide⟩
      | false => exact ⟨"fals".toList, 'e', rfl, by decide⟩
  | @group members _ =>
      refine ⟨'{' :: ' ' :: (Text.join ", ".toList (sources members) ++ [' ']), '}', ?_, by decide⟩
      simp [source]

end Value.IsConstant

namespace Attribute

theorem IsConstant.isFragment {attr : Attribute} (h : attr.IsConstant) : IsFragment attr.source := by
  obtain ⟨key, value⟩ := attr
  obtain ⟨c, hc, hstart⟩ := h.key.head
  obtain ⟨cs, rfl⟩ : ∃ cs, key = c :: cs := List.head?_eq_some_iff.mp hc
  obtain ⟨before, d, hvalue, hlast⟩ := h.value.exists_concat
  have hblank : Text.isBlank c = false := isBlank_of_isKeyChar (isKeyChar_of_isKeyStart hstart)
  refine ⟨List.cons_ne_nil _ _, ?_, ?_⟩
  · have hend : source ⟨c :: cs, value⟩ = c :: (cs ++ ':' :: ' ' :: before) ++ [d] := by
      rw [source, show value.source = _ from hvalue]
      simp
    rw [Text.trim, hend, Text.trimStart, List.cons_append, List.dropWhile_cons_of_neg (by simp [hblank]),
      ← List.cons_append]
    exact Text.trimEnd_eq_self fun e he => by
      rw [List.getLast?_concat] at he
      exact Option.some.inj he ▸ hlast
  · have hzero := fun c hc => Code.countBrackets_of_notMem (c := c) hc 0
    rw [source, Code.past?_trans (h.key.past? hzero)]
    exact h.value.past?

end Attribute

end Haml
