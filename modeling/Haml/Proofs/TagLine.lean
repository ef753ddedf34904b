import Haml.Proofs.Enclosed

/-!
# Reading written tag lines

A tag line is written from a name, classes and ids, attributes in braces, and what stands behind them.
Each part ends where the next one starts, since it cannot go on with the character that stands there. Main
statement: the reader finds all parts again, with the classes and the ids in the order in which they were
written.
-/

namespace Haml

/-! ## Writing -/

namespace Shorthand

def sigil : Shorthand → Char
  | .className _ => '.'
  | .idName _ => '#'

def name : Shorthand → Text
  | .className name => name
  | .idName name => name

def write (token : Shorthand) : Text := token.sigil :: token.name

/-- A character of the name of a class or an id. -/
def isTokenChar (c : Char) : Bool := Text.isNameChar c || c = ':'

/-- A token whose name the reader can tell from what follows it. -/
structure IsToken (token : Shorthand) : Prop where
  ne_nil : token.name ≠ []
  isTokenChar : ∀ c ∈ token.name, isTokenChar c = true

instance (token : Shorthand) : Decidable token.IsToken :=
  decidable_of_iff (token.name ≠ [] ∧ token.name.all isTokenChar = true)
    ⟨fun h => ⟨h.1, List.all_eq_true.mp h.2⟩, fun h => ⟨h.ne_nil, List.all_eq_true.mpr h.isTokenChar⟩⟩

end Shorthand

/-- The marks of an output behind a tag. -/
inductive OutputMark where
  /-- The value, `=`. -/
  | plain
  /-- The value, escaped, `&=`. -/
  | escaped
  /-- The value as it is, `!=`. -/
  | unescaped
  deriving DecidableEq, Repr

namespace OutputMark

def write : OutputMark → Text
  | .plain => ['=']
  | .escaped => ['&', '=']
  | .unescaped => ['!', '=']

def escaping : OutputMark → Escaping
  | .plain => .escaped
  | .escaped => .escaped
  | .unescaped => .unescaped

end OutputMark

/-- What is written behind a tag. -/
inductive Ending where
  | nothing
  | text (text : Text)
  | output (mark : OutputMark) (code : Text)
  deriving DecidableEq, Repr

namespace Ending

def write : Ending → Text
  | .nothing => []
  | .text s => ' ' :: s
  | .output mark code => mark.write ++ ' ' :: code

/-- The content that is meant. -/
def content : Ending → Content
  | .nothing => .text []
  | .text s => .text s
  | .output mark code => .output mark.escaping code

/-- Texts and codes are trimmed, and a text is there and does not look like an output. -/
inductive IsWellFormed : Ending → Prop where
  | nothing : IsWellFormed .nothing
  | text {s : Text} : s ≠ [] → Text.trim s = s → (∀ mark : OutputMark, ¬ mark.write <+: s) →
      IsWellFormed (.text s)
  | output (mark : OutputMark) {code : Text} : Text.trim code = code → IsWellFormed (.output mark code)

end Ending

/-- A tag line by its parts. -/
structure TagLine where
  /-- The name after `%`, if one is written. -/
  name : Option Text
  tokens : List Shorthand
  /-- The text between the braces, if braces are written. -/
  attributes : Option Text
  ending : Ending
  deriving DecidableEq, Repr

namespace TagLine

def writeName : Option Text → Text
  | some name => '%' :: name
  | none => []

def writeAttributes : Option Text → Text
  | some attributes => '{' :: (attributes ++ ['}'])
  | none => []

def write (line : TagLine) : Text :=
  writeName line.name ++ line.tokens.flatMap Shorthand.write
    ++ (writeAttributes line.attributes ++ line.ending.write)

/-- The tag that is meant. -/
def tag (line : TagLine) : Tag where
  name := line.name.getD Html.genericElement
  classes := line.tokens.filterMap Shorthand.className?
  ids := line.tokens.filterMap Shorthand.idName?
  attributes := line.attributes
  content := line.ending.content

/--
Without a name there is a class or an id, the attributes close their quotes and braces, and without
attributes no text starts like them.
-/
structure IsWellFormed (line : TagLine) : Prop where
  name : ∀ name ∈ line.name, Html.IsName name
  tokens : ∀ token ∈ line.tokens, token.IsToken
  starts : line.name = none → line.tokens ≠ []
  attributes : ∀ attributes ∈ line.attributes, Code.IsEnclosed attributes
  ending : line.ending.IsWellFormed
  noBrace : line.attributes = none → ∀ text, line.ending = .text text → text.head? ≠ some '{'

end TagLine

/-! ## Chains -/

namespace Shorthand

variable {token : Shorthand} {written : List Shorthand}

theorem isSigil_sigil (token : Shorthand) : isSigil token.sigil = true := by
  cases token <;> rfl

theorem isChainChar_of_isTokenChar {c : Char} (h : isTokenChar c = true) :
    isChainChar c = true ∧ isSigil c = false := by
  rcases Bool.or_eq_true_iff.mp h with hname | hcolon
  · refine ⟨isChainChar_of_isNameChar hname, ?_⟩
    rw [Bool.eq_false_iff]
    intro hsigil
    rcases eq_of_isSigil hsigil with rfl | rfl <;> cases hname
  · rw [of_decide_eq_true hcolon]
    decide

theorem tokens_write (h : token.IsToken) {rest : Text} (hrest : ∀ c ∈ rest.head?, isSigil c = true) :
    tokens (token.write ++ rest) = token :: tokens rest := by
  have hname : ∀ c ∈ token.name, isSigil c = false := fun c hc =>
    (isChainChar_of_isTokenChar (h.isTokenChar c hc)).2
  have htoken : ofSigil? token.sigil token.name = some token := by
    have hne := h.ne_nil
    cases token <;> simp_all [ofSigil?, sigil, name]
  rw [write, List.cons_append, tokens_cons_append (isSigil_sigil token) hname hrest, htoken]
  rfl

theorem head_written (c : Char) (h : c ∈ (written.flatMap write).head?) : isSigil c = true := by
  cases written with
  | nil => cases h
  | cons token rest =>
      rw [← Option.some.inj h]
      exact isSigil_sigil token

/-- The tokens of a written chain are those that it was written from. -/
theorem tokens_written (h : ∀ token ∈ written, token.IsToken) :
    tokens (written.flatMap write) = written := by
  induction written with
  | nil => rfl
  | cons token rest ih =>
      obtain ⟨htoken, hrest⟩ := List.forall_mem_cons.mp h
      rw [List.flatMap_cons, tokens_write htoken head_written, ih hrest]

theorem isRun_written (h : ∀ token ∈ written, token.IsToken) : IsRun (written.flatMap write) where
  head := head_written
  chars := by
    intro c hc
    obtain ⟨token, htoken, hc⟩ := List.mem_flatMap.mp hc
    rcases List.mem_cons.mp hc with rfl | hc
    · rcases eq_of_isSigil (isSigil_sigil token) with heq | heq <;> rw [heq]
      · exact .inl rfl
      · exact .inr rfl
    · exact .inl (isChainChar_of_isTokenChar ((h token htoken).isTokenChar c hc)).1

/-- The last token has a name, so that no written chain ends with a hash. -/
theorem getLast?_written (h : ∀ token ∈ written, token.IsToken) :
    (written.flatMap write).getLast? ≠ some '#' := by
  rcases List.eq_nil_or_concat written with rfl | ⟨front, token, rfl⟩
  · simp
  · have htoken := h token (by simp)
    have hchar := htoken.isTokenChar _ (List.getLast_mem htoken.ne_nil)
    have hconcat := List.dropLast_append_getLast htoken.ne_nil
    rw [List.concat_eq_append, List.flatMap_append, List.flatMap_singleton, write, ← hconcat,
      ← List.cons_append, ← List.append_assoc, List.getLast?_concat]
    intro heq
    rw [Option.some.inj heq] at hchar
    cases hchar

/-- A chain that is written ends before a text that no chain goes on with. -/
theorem chain_written (h : ∀ token ∈ written, token.IsToken) {rest : Text} (hrest : EndsChain rest) :
    chain (written.flatMap write ++ rest) = (written.flatMap write, rest) :=
  chain_append (isRun_written h).chars hrest fun heq => absurd heq (getLast?_written h)

end Shorthand

/-! ## Endings -/

namespace Ending

variable {ending : Ending}

theorem ofText_write (mark : OutputMark) (s : Text) :
    Content.ofText (mark.write ++ s) = .output mark.escaping (Text.trim s) := by
  cases mark <;> rfl

theorem trim_write (mark : OutputMark) (s : Text) :
    Text.trim (mark.write ++ s) = mark.write ++ Text.trimEnd s := by
  have hnone : ∀ b ∈ ([] : Text), Text.isBlank b = true := List.forall_mem_nil _
  have hequals : Text.trimEnd ('=' :: s) = '=' :: Text.trimEnd s := Text.trimEnd_cons (by decide) s
  cases mark with
  | plain => exact Text.trim_append_cons hnone (by decide) s
  | escaped =>
      have htrim := Text.trim_append_cons hnone (c := '&') (by decide) ('=' :: s)
      rwa [hequals] at htrim
  | unescaped =>
      have htrim := Text.trim_append_cons hnone (c := '!') (by decide) ('=' :: s)
      rwa [hequals] at htrim

theorem ofText_trim_write (h : ending.IsWellFormed) :
    Content.ofText (Text.trim ending.write) = ending.content := by
  cases h with
  | nothing => decide
  | @text s _ htrim hmark =>
      rw [write, Text.trim_space, htrim, content]
      unfold Content.ofText
      split
      · exact absurd ⟨_, rfl⟩ (hmark .unescaped)
      · exact absurd ⟨_, rfl⟩ (hmark .escaped)
      · exact absurd ⟨_, rfl⟩ (hmark .plain)
      · rfl
  | output mark htrim =>
      rw [write, trim_write, ofText_write, Text.trim_trimEnd, Text.trim_space, htrim, content]

/-- No chain goes on with an ending. -/
theorem endsChain_write (ending : Ending) : Shorthand.EndsChain ending.write := by
  cases ending with
  | nothing => rfl
  | text => rfl
  | output mark => cases mark <;> rfl

theorem trimStart_write_head (h : ending.IsWellFormed)
    (hbrace : ∀ s, ending = .text s → s.head? ≠ some '{') :
    (Text.trimStart ending.write).head? ≠ some '{' := by
  cases h with
  | nothing => decide
  | @text s hne htrim _ =>
      obtain ⟨c, cs, rfl⟩ := List.exists_cons_of_ne_nil hne
      obtain ⟨_, _, hc⟩ := Text.eq_append_of_trim htrim
      have hstart := Text.trimStart_append_cons Text.isBlank_of_mem_space hc cs
      rw [write, ← List.singleton_append, hstart]
      exact hbrace _ rfl
  | output mark _ => cases mark <;> exact fun heq => absurd (Option.some.inj heq) (by decide)

end Ending

/-! ## Tag lines -/

namespace TagLine

variable {line : TagLine}

theorem endsChain (line : TagLine) :
    Shorthand.EndsChain (writeAttributes line.attributes ++ line.ending.write) := by
  cases line.attributes with
  | none => exact line.ending.endsChain_write
  | some => rfl

theorem splitAttributes_write (h : line.IsWellFormed) :
    Tag.splitAttributes (writeAttributes line.attributes ++ line.ending.write)
      = (line.attributes, line.ending.write) := by
  cases hattributes : line.attributes with
  | none =>
      have hbrace := Ending.trimStart_write_head h.ending (h.noBrace hattributes)
      rw [writeAttributes, List.nil_append, Tag.splitAttributes, Code.braced?_eq_none hbrace]
  | some attributes =>
      have hbraced := Code.braced?_of_isEnclosed (h.attributes attributes hattributes) line.ending.write
      rw [writeAttributes, List.cons_append, List.append_assoc, List.singleton_append, Tag.splitAttributes,
        hbraced]

theorem ofParts_write (h : line.IsWellFormed) :
    Tag.ofParts (line.name.getD Html.genericElement) line.tokens
      (writeAttributes line.attributes ++ line.ending.write) = line.tag := by
  rw [Tag.ofParts, splitAttributes_write h]
  simp only [Ending.ofText_trim_write h.ending]
  rfl

/-- A tag line is read as the tag that it was written for. -/
theorem parse?_write (h : line.IsWellFormed) : Tag.parse? line.write = some line.tag := by
  have hrun := Shorthand.isRun_written h.tokens
  have htokens := Shorthand.tokens_written h.tokens
  have hstem : Tag.IsStem (writeName line.name ++ line.tokens.flatMap Shorthand.write)
      (line.name.getD Html.genericElement) (line.tokens.flatMap Shorthand.write) := by
    cases hname : line.name with
    | some name => exact .named (h.name name hname) hrun
    | none => exact .generic hrun (htokens.trans_ne (h.starts hname))
  have hparse := hstem.parse? (Shorthand.chain_written h.tokens (endsChain line))
  rw [htokens, ofParts_write h] at hparse
  exact hparse

/-- Sigils, marks and braces that belong to the attributes or the code end neither. -/
theorem parse?_write_crowded :
    Tag.parse? "%x-1.b:c#d.e\x7b k: '\x7d', g: \x7b h: \"\x7b.\" \x7d \x7d!= f(\x7b#= '\x7d)".toList
      = some ⟨"x-1".toList, ["b:c".toList, "e".toList], ["d".toList],
          some " k: '\x7d', g: \x7b h: \"\x7b.\" \x7d ".toList,
          .output .unescaped "f(\x7b#= '\x7d)".toList⟩ := by
  have hline : IsWellFormed
      ⟨some "x-1".toList, [.className "b:c".toList, .idName "d".toList, .className "e".toList],
        some " k: '\x7d', g: \x7b h: \"\x7b.\" \x7d ".toList,
        .output .unescaped "f(\x7b#= '\x7d)".toList⟩ :=
    { name := by
        rintro _ ⟨⟩
        exact ⟨by decide, List.all_eq_true.mp rfl⟩
      tokens := by decide
      starts := by decide
      attributes := by decide
      ending := .output .unescaped (by decide)
      noBrace := nofun }
  exact parse?_write hline

end TagLine

end Haml
