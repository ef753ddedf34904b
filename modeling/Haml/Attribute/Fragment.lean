import Haml.Attribute.Quoted
import Haml.Attribute.Value
import Haml.Code.Bracket
import Haml.Code.Split

/-!
# Reading attribute literals

The text between attribute braces is split at its top-level commas. Each fragment has a key and a
value, and a rule pairs one way to write a key with one way to write a value. The first rule in
the list that accepts a fragment gives its attribute; a fragment that no rule accepts is dropped.

The two rules that take any code stand behind the more special rules for their keys.
-/

namespace Haml.Attribute

/-! ## Keys -/

/-- The ways to write a key. -/
inductive KeyForm where
  /-- A word and a colon, `key:`. -/
  | bare
  /-- A word in quotes and a colon, `'key':` or `"key":`. -/
  | quoted
  /-- A symbol and an arrow, `:key =>`. -/
  | symbol
  deriving DecidableEq, Repr

def isKeyStart (c : Char) : Bool := Text.isIdentStart c || c = '-'

def isKeyChar (c : Char) : Bool := Text.isWord c || c = '-'

/--
The key that a text starts with, its first character being of a given class, and what follows.
-/
def keyWord? (isStart : Char → Bool) : Text → Option (Text × Text)
  | [] => none
  | c :: cs =>
    if isStart c then some (c :: cs.takeWhile isKeyChar, cs.dropWhile isKeyChar) else none

/-- The key and what follows the mark after it, which blanks may precede. -/
def beforeMark? (mark : Text) (parts : Text × Text) : Option (Text × Text) :=
  (Text.after? mark (Text.trimStart parts.2)).map fun rest => (parts.1, rest)

/-- The key of a fragment in one form, and the text after its mark. -/
def KeyForm.split? : KeyForm → Text → Option (Text × Text)
  | .bare, s => (keyWord? isKeyStart s).bind (beforeMark? [':'])
  | .quoted, quote :: s =>
    if Code.isQuote quote then
      (keyWord? isKeyStart s).bind fun (key, rest) =>
        (Text.after? [quote] rest).bind fun rest => beforeMark? [':'] (key, rest)
    else none
  | .symbol, ':' :: s => (keyWord? Text.isIdentStart s).bind (beforeMark? ['=', '>'])
  | _, _ => none

/-! ## Values -/

/-- The ways to write a value. -/
inductive ValueForm where
  /-- Attributes in braces. -/
  | group
  | string
  | number
  | boolean
  | symbol
  /-- Code that starts with a call. -/
  | call
  /-- A constant, an instance variable, or a path of accesses. -/
  | access
  | code
  deriving DecidableEq, Repr

def isAccessChar (c : Char) : Bool :=
  Text.isWord c || c = '@' || c = '.' || c = ':' || c = '&' || c = '?' || c = '!' || c = '['
    || c = ']'

/-- The text between the braces of a value that is one brace group on one line. -/
def groupContent? (s : Text) : Option Text :=
  if s.contains '\n' || s.getLast? != some '}' then none
  else (Code.braced? s).bind fun group =>
    if Text.trim group.remaining = [] then some group.content else none

def isInteger : Text → Bool
  | '-' :: digits => digits != [] && digits.all Text.isDigit
  | digits => digits != [] && digits.all Text.isDigit

/-- The name of a symbol; it may end in one question or exclamation mark. -/
def symbolName? : Text → Option Text
  | ':' :: c :: cs =>
    let ending := cs.dropWhile Text.isWord
    if Text.isIdentStart c && (ending = [] || ending = ['?'] || ending = ['!']) then some (c :: cs)
    else none
  | _ => none

/-- Whether the text is a path of accesses that reaches an open parenthesis, all on one line. -/
def isCall : Text → Bool
  | [] => false
  | c :: cs =>
    (Text.isIdentStart c || c = '@') && (cs.dropWhile isAccessChar).head? == some '('
      && !(cs.contains '\n')

/-- Whether the text, which follows an identifier, goes on with an access. -/
def startsAccess : Text → Bool
  | '.' :: _ => true
  | '[' :: _ => true
  | ':' :: ':' :: _ => true
  | '&' :: '.' :: _ => true
  | _ => false

/-- Whether the text is a constant, an instance variable, or an identifier with accesses. -/
def isAccess : Text → Bool
  | [] => false
  | c :: cs =>
    cs.all isAccessChar
      && (c.isUpper || c = '@' || Text.isIdentStart c && startsAccess (cs.dropWhile Text.isWord))

/--
The code that a text holds: all but its blanks, if a last line without newline is left once blanks
are taken from the start.
-/
def codeText? (s : Text) : Option Text :=
  let reversed := s.reverse
  if reversed.takeWhile (· ≠ '\n') != []
      && (reversed.dropWhile (· ≠ '\n')).all Text.isBlank then
    some (Text.trim s)
  else none

/--
The value that a text has in one form. Blanks may precede it; `members` reads the text between the
braces of a group.
-/
def ValueForm.read? (members : Text → List Attribute) (form : ValueForm) (s : Text) :
    Option Value :=
  let v := Text.trimStart s
  match form with
  | .group => (groupContent? v).map fun content => .group (members content)
  | .string => (quotedText? v).map .string
  | .number => if isInteger v then some (.number v) else none
  | .boolean =>
    if v = "true".toList then some (.boolean true)
    else if v = "false".toList then some (.boolean false)
    else none
  | .symbol => (symbolName? v).map .symbol
  | .call => if isCall v then some (.code (Text.trim v)) else none
  | .access => if isAccess v then some (.code v) else none
  | .code => (codeText? s).map .code

/-! ## Rules -/

/-- A rule accepts the fragments with a key of one form and a value of one form. -/
structure Rule where
  key : KeyForm
  value : ValueForm
  deriving DecidableEq, Repr

/-- The rules, in the order in which they are tried. -/
def rules : List Rule :=
  [⟨.bare, .group⟩, ⟨.symbol, .string⟩, ⟨.symbol, .number⟩, ⟨.quoted, .string⟩,
    ⟨.quoted, .boolean⟩, ⟨.quoted, .code⟩, ⟨.bare, .call⟩, ⟨.bare, .access⟩, ⟨.bare, .string⟩,
    ⟨.bare, .boolean⟩, ⟨.bare, .number⟩, ⟨.bare, .symbol⟩, ⟨.bare, .code⟩]

def Rule.read? (members : Text → List Attribute) (rule : Rule) (fragment : Text) :
    Option Attribute :=
  (rule.key.split? fragment).bind fun (key, rest) =>
    (rule.value.read? members rest).map fun value => ⟨normalizeKey key, value⟩

def readFragment? (rules : List Rule) (members : Text → List Attribute) (fragment : Text) :
    Option Attribute :=
  rules.findSome? fun rule => rule.read? members fragment

def fragments (s : Text) : List Text :=
  ((Code.split ',' s).map Text.trim).filter (· != [])

/--
The members of a group: the attributes of its text that have quoted strings for values. A group in a
group is therefore dropped whatever it holds, and is read as if it were empty.
-/
def members (rules : List Rule) (content : Text) : List Attribute :=
  ((fragments content).filterMap (readFragment? rules fun _ => [])).filter (·.value.isString)

def ofFragmentBy? (rules : List Rule) (fragment : Text) : Option Attribute :=
  readFragment? rules (members rules) fragment

def ofTextBy (rules : List Rule) (s : Text) : List Attribute :=
  (fragments s).filterMap (ofFragmentBy? rules)

def ofFragment? (fragment : Text) : Option Attribute := ofFragmentBy? rules fragment

/-- The attributes that a text between braces stands for, in order. -/
def ofText (s : Text) : List Attribute := ofTextBy rules s

end Haml.Attribute
