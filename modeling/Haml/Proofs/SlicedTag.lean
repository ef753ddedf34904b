import Haml.Proofs.SlicedCode
import Haml.Proofs.TagStart

/-!
# Tag lines read by offsets

The name of a tag ends where the first other character stands, and its chain of tokens where the first character
stands that no token goes on with. A token runs from its sigil, which takes one byte, to the next sigil. Tag lines
that are read so, by slices, are read as the same tags.
-/

namespace Haml.Sliced

/-! ## Chains of tokens -/

/-- Whether a chain goes on with the character at an offset. -/
def isChained (s : Text) (offset : Nat) (c : Char) : Sliced Bool := do
  if Shorthand.isChainChar c then return true
  else if c = '#' then return (← s.sliceFrom (offset + 1)).head? != some '{'
  else return false

/-- Where the chain ends that starts a text; what is left of the text stands at `offset`. -/
def chainEnd (s : Text) : (offset : Nat) → Text → Sliced Nat
  | _, [] => return s.byteSize
  | offset, c :: cs => do
    if ← isChained s offset c then chainEnd s (offset + c.utf8Size) cs else return offset

/-- The token that a sigil and what follows it stand for. -/
def token? (token : Text) : Sliced (Option Shorthand) := do
  let sigil ← token.slice 0 1
  let name ← token.sliceFrom 1
  if name = [] then return none
  else if sigil = ['.'] then return some (.className name)
  else if sigil = ['#'] then return some (.idName name)
  else return none

/-- The tokens of a chain. The token that is being read starts at `start`, and what is left at `offset`. -/
def tokensFrom (chain : Text) : (start offset : Nat) → Text → Sliced (List Shorthand)
  | start, _, [] => do return (← token? (← chain.sliceFrom start)).toList
  | start, offset, c :: cs =>
    if Shorthand.isSigil c then do
      let token ← token? (← chain.slice start offset)
      return token.toList ++ (← tokensFrom chain offset (offset + c.utf8Size) cs)
    else tokensFrom chain start (offset + c.utf8Size) cs

def tokens (chain : Text) : Sliced (List Shorthand) :=
  match chain with
  | [] => return []
  | c :: cs => tokensFrom chain 0 c.utf8Size cs

def splitShorthand (s : Text) : Sliced (List Shorthand × Text) := do
  if s.head?.any Shorthand.isSigil then
    let stop ← chainEnd s 0 s
    let tokens ← tokens (← s.slice 0 stop)
    return (tokens, ← s.sliceFrom stop)
  else return ([], s)

theorem isChained_eq {s before rest : Text} {c : Char} (hs : s = before ++ c :: rest) :
    isChained s before.byteSize c
      = .ok (Shorthand.isChainChar c || c = '#' && rest.head? != some '{') := by
  by_cases hhash : c = '#'
  · subst hhash
    have hrest : s.sliceFrom (before.byteSize + 1) = .ok rest :=
      Text.sliceFrom_eq_ok_iff.mpr ⟨before ++ ['#'], by simp [hs], (Text.byteSize_concat before '#').symm⟩
    rw [isChained, hrest]
    rfl
  · cases hchar : Shorthand.isChainChar c <;> simp [isChained, hchar, hhash]

theorem chainEnd_eq {s rest : Text} (before : Text) (hs : s = before ++ rest) :
    chainEnd s before.byteSize rest = .ok (before.byteSize + (Shorthand.chain rest).1.byteSize) := by
  induction rest generalizing before with
  | nil => rw [chainEnd, hs, List.append_nil]; rfl
  | cons c cs ih =>
      have hnext := ih (before ++ [c]) (by simp [hs])
      rw [chainEnd, isChained_eq hs, Shorthand.chain, ok_bind]
      split
      · rw [Text.byteSize_concat, Nat.add_assoc] at hnext
        exact hnext
      · rfl

/-- A token is read as what its sigil makes of its name. -/
theorem token?_cons {sigil : Char} (h : Shorthand.isSigil sigil = true) (name : Text) :
    token? (sigil :: name) = .ok (Shorthand.ofSigil? sigil name) := by
  have hsize : Text.byteSize [sigil] = 1 := by
    rcases Shorthand.eq_of_isSigil h with rfl | rfl <;> rfl
  obtain ⟨hsigil, hname⟩ := Text.slices_of_append (List.singleton_append : [sigil] ++ name = sigil :: name)
  rw [hsize] at hsigil hname
  rw [token?, hsigil, hname]
  rcases Shorthand.eq_of_isSigil h with rfl | rfl <;>
  · by_cases hempty : name = [] <;> simp [Shorthand.ofSigil?, hempty]

/-- What is left when a token is read is the rest of that token and the tokens behind it. -/
theorem tokensFrom_eq {chain rest : Text} {sigil : Char} (before name : Text)
    (hchain : chain = before ++ (sigil :: name ++ rest)) (hsigil : Shorthand.isSigil sigil = true)
    (hname : ∀ c ∈ name, Shorthand.isSigil c = false) :
    tokensFrom chain before.byteSize (before.byteSize + Text.byteSize (sigil :: name)) rest
      = .ok (Shorthand.tokens (sigil :: (name ++ rest))) := by
  induction rest generalizing before sigil name with
  | nil =>
      have hlast : chain.sliceFrom before.byteSize = .ok (sigil :: name) :=
        Text.sliceFrom_eq_ok_iff.mpr ⟨before, by simpa using hchain, rfl⟩
      rw [tokensFrom, hlast, ok_bind, token?_cons hsigil,
        Shorthand.tokens_cons_append hsigil hname fun _ h => by cases h]
      simp [Shorthand.tokens]
  | cons c cs ih =>
      have hsize : before.byteSize + Text.byteSize (sigil :: name) + c.utf8Size
          = before.byteSize + Text.byteSize (sigil :: (name ++ [c])) := by
        simp [Text.byteSize, Text.byteSize_append, Nat.add_assoc]
      rw [tokensFrom]
      split
      · rename_i hc
        have htoken : chain.slice before.byteSize (before.byteSize + Text.byteSize (sigil :: name))
            = .ok (sigil :: name) :=
          Text.slice_eq_ok_iff.mpr ⟨before, c :: cs, hchain, rfl, rfl⟩
        have hnext := ih (before ++ sigil :: name) [] (by simp [hchain]) hc
          (fun _ h => by cases h)
        rw [Text.byteSize_append] at hnext
        rw [htoken, ok_bind, token?_cons hsigil, Shorthand.tokens_cons_append hsigil hname (by simpa using hc)]
        exact congrArg (· >>= fun tokens => pure (_ ++ tokens)) hnext
      · rename_i hc
        have hnext := ih before (name ++ [c]) (by simp [hchain]) hsigil
          (by simpa [or_imp, forall_and] using ⟨hname, Bool.eq_false_iff.mpr hc⟩)
        rw [hsize]
        simpa using hnext

theorem tokens_eq {chain : Text} (h : ∀ c ∈ chain.head?, Shorthand.isSigil c = true) :
    tokens chain = .ok (Shorthand.tokens chain) := by
  cases chain with
  | nil => rfl
  | cons c cs =>
      have hsize : Text.byteSize [] + Text.byteSize [c] = c.utf8Size := by simp [Text.byteSize]
      have htokens := tokensFrom_eq [] [] (List.nil_append (c :: cs)).symm (h c rfl) fun _ hd => by cases hd
      rwa [hsize] at htokens

@[simp]
theorem splitShorthand_eq (s : Text) : splitShorthand s = .ok (Tag.splitShorthand s) := by
  rw [splitShorthand, Tag.splitShorthand]
  split
  · rename_i hsigil
    have hend : chainEnd s 0 s = .ok (Shorthand.chain s).1.byteSize := by
      have hstart := chainEnd_eq [] (List.nil_append s).symm
      rwa [Text.byteSize, Nat.zero_add] at hstart
    have happend := Tag.append_chain s
    obtain ⟨hchain, hrest⟩ := Text.slices_of_append happend
    have hhead : ∀ c ∈ (Shorthand.chain s).1.head?, Shorthand.isSigil c = true := by
      intro c hc
      obtain ⟨cs, hcs⟩ := List.head?_eq_some_iff.mp hc
      rw [← happend, hcs] at hsigil
      exact hsigil
    simp only [hend, hchain, hrest, tokens_eq hhead, ok_bind]
    rfl
  · rfl

/-! ## Tags -/

/-- Where the first character stands that is not part of a name, or else the end of the text. -/
def nameEnd (s : Text) : Nat :=
  (offsets (fun s => s.head?.any (!Text.isNameChar ·)) 0 s).head?.getD s.byteSize

def splitAttributes (s : Text) : Sliced (Option Text × Text) := do
  match ← braced? s with
  | some group => return (some group.content, group.remaining)
  | none => return (none, s)

def ofParts (name : Text) (tokens : List Shorthand) (rest : Text) : Sliced Tag := do
  let (attributes, following) ← splitAttributes rest
  return { name
           classes := tokens.filterMap Shorthand.className?
           ids := tokens.filterMap Shorthand.idName?
           attributes
           content := Content.ofText (Text.trim following) }

def parse? : Text → Sliced (Option Tag)
  | '%' :: cs => do
    if nameEnd cs = 0 then return none
    else
      let name ← Text.slice cs 0 (nameEnd cs)
      let (tokens, rest) ← splitShorthand (← Text.sliceFrom cs (nameEnd cs))
      return some (← ofParts name tokens rest)
  | s => do
    let (tokens, rest) ← splitShorthand s
    if tokens = [] then return none else return some (← ofParts Html.genericElement tokens rest)

theorem nameEnd_eq (s : Text) : nameEnd s = Text.byteSize (s.takeWhile Text.isNameChar) := by
  have hfrom : ∀ (offset : Nat) (s : Text),
      (offsets (fun s => s.head?.any (!Text.isNameChar ·)) offset s).head?.getD (offset + s.byteSize)
        = offset + Text.byteSize (s.takeWhile Text.isNameChar) := by
    intro offset s
    induction s generalizing offset with
    | nil => rfl
    | cons c cs ih =>
        cases hc : Text.isNameChar c with
        | false => simp [offsets, hc, Text.byteSize]
        | true => simpa [offsets, hc, Text.byteSize, Nat.add_assoc] using ih (offset + c.utf8Size)
  have hstart := hfrom 0 s
  rwa [Nat.zero_add, Nat.zero_add] at hstart

@[simp]
theorem ofParts_eq (name : Text) (tokens : List Shorthand) (rest : Text) :
    ofParts name tokens rest = .ok (Tag.ofParts name tokens rest) := by
  rw [ofParts, splitAttributes, braced?_eq, Tag.ofParts, Tag.splitAttributes]
  cases Code.braced? rest <;> rfl

@[simp]
theorem parse?_eq (s : Text) : parse? s = .ok (Tag.parse? s) := by
  unfold parse?
  split
  · rename_i cs
    have hsplit : cs.takeWhile Text.isNameChar ++ cs.dropWhile Text.isNameChar = cs :=
      List.takeWhile_append_dropWhile
    obtain ⟨hname, hrest⟩ := Text.slices_of_append hsplit
    rw [nameEnd_eq, hname, hrest, Tag.parse?]
    generalize cs.takeWhile Text.isNameChar = name
    cases name with
    | nil => rfl
    | cons c name => simp [Nat.ne_of_gt (Text.byteSize_cons_pos c name)]
  · rename_i hnamed
    rw [Tag.parse?]
    · by_cases hempty : (Tag.splitShorthand s).1 = [] <;> simp [hempty]
    · exact hnamed

end Haml.Sliced
