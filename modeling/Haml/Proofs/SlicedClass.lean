import Haml.Proofs.Class
import Haml.Proofs.SlicedCode

/-!
# Class values read byte by byte

The tokens of a class value are told apart by bytes, of which only some start a character. All bytes that a token
may start at or end before are ASCII, and no byte of a wider character is: so both ends of a token are boundaries.
-/

namespace Haml.Sliced

/-- The bytes of a text in UTF-8. -/
def bytes (s : Text) : List UInt8 := s.toBytes.data.toList

/-- The bytes of ASCII white space. -/
def isBlankByte (b : UInt8) : Bool := b = 0x20 || b = 0x09 || b = 0x0a || b = 0x0c || b = 0x0d

/-- The token between a start and an offset, if there is a start. -/
def tokenUpTo (value : Text) (start? : Option Nat) (offset : Nat) : Sliced (List Text) :=
  match start? with
  | some start => do return [← value.slice start offset]
  | none => return []

/--
The tokens of a class value, read on from inside or outside of a code tag. The token that is being read, if there
is one, starts at `start?`, and the bytes that are left at `offset`.
-/
def classTokensFrom (value : Text) :
    (inTag : Bool) → (start? : Option Nat) → (offset : Nat) → List UInt8 → Sliced (List Text)
  | _, start?, _, [] => tokenUpTo value start? value.byteSize
  | false, start?, offset, 0x3c :: 0x25 :: rest =>
    classTokensFrom value true (some (start?.getD offset)) (offset + 2) rest
  | true, start?, offset, 0x25 :: 0x3e :: rest => classTokensFrom value false start? (offset + 2) rest
  | inTag, start?, offset, b :: rest =>
    if !inTag && isBlankByte b then do
      let token ← tokenUpTo value start? offset
      return token ++ (← classTokensFrom value inTag none (offset + 1) rest)
    else classTokensFrom value inTag (some (start?.getD offset)) (offset + 1) rest

def classTokens (value : Text) : Sliced (List Text) := classTokensFrom value false none 0 (bytes value)

def mergeClass (base additional : Text) : Sliced Text := do
  let tokens := (← classTokens base) ++ (← classTokens additional)
  return Text.join [' '] (Attribute.distinct tokens)

/-! ## Bytes of characters -/

theorem bytes_cons (c : Char) (s : Text) : bytes (c :: s) = String.utf8EncodeChar c ++ bytes s := by
  simp [bytes, Text.toBytes, String.toUTF8, String.toByteArray_ofList, List.utf8Encode]

theorem utf8EncodeChar_ascii {c : Char} (h : c.toNat < 0x80) :
    String.utf8EncodeChar c = [UInt8.ofNat c.toNat] :=
  if_pos (Nat.le_of_lt_succ h)

/-- No byte of a wide character is that of an ASCII character. -/
theorem le_of_mem_utf8EncodeChar {c : Char} (h : 0x80 ≤ c.toNat) :
    ∀ b ∈ String.utf8EncodeChar c, 0x80 ≤ b.toNat := by
  have hwide : ¬ c.val.toNat ≤ 127 := Nat.not_le.mpr h
  unfold String.utf8EncodeChar
  simp only [hwide, if_false]
  split_ifs <;> simp <;> omega

theorem isBlankByte_ascii {c : Char} (h : c.toNat < 0x80) :
    isBlankByte (UInt8.ofNat c.toNat) = Text.isAsciiBlank c :=
  Text.of_ascii (P := fun c => isBlankByte (UInt8.ofNat c.toNat) = Text.isAsciiBlank c) (by decide) h

theorem ne_of_wide {b : UInt8} (h : 0x80 ≤ b.toNat) {a : UInt8} (ha : a.toNat < 0x80) : b ≠ a := by
  rintro rfl
  exact Nat.not_le.mpr ha h

theorem toNat_byte {c : Char} (h : c.toNat < 0x80) : (UInt8.ofNat c.toNat).toNat = c.toNat :=
  UInt8.toNat_ofNat_of_lt' (Nat.lt_trans h (by decide))

theorem byte_inj {c d : Char} (hc : c.toNat < 0x80) (hd : d.toNat < 0x80)
    (h : UInt8.ofNat c.toNat = UInt8.ofNat d.toNat) : c = d := by
  have heq := congrArg UInt8.toNat h
  rw [toNat_byte hc, toNat_byte hd] at heq
  exact Char.toNat_inj.mp heq

/-- An ASCII byte in front is an ASCII character in front. -/
theorem head?_of_bytes {s : Text} {c : Char} (hc : c.toNat < 0x80)
    (h : (bytes s).head? = some (UInt8.ofNat c.toNat)) : s.head? = some c := by
  cases s with
  | nil => cases h
  | cons d ds =>
      rw [bytes_cons] at h
      rcases Nat.lt_or_ge d.toNat 0x80 with hd | hd
      · rw [utf8EncodeChar_ascii hd] at h
        rw [List.head?_cons, byte_inj hd hc (Option.some.inj h)]
      · rw [List.head?_append_of_ne_nil _ String.utf8EncodeChar_ne_nil] at h
        have hwide := le_of_mem_utf8EncodeChar hd _ (List.mem_of_head? h)
        exact absurd rfl (ne_of_wide hwide (by rwa [toNat_byte hc]))

/-! ## Steps -/

/-- Whether two bytes are the delimiter that changes the standing. -/
def isMark : (inTag : Bool) → UInt8 → UInt8 → Bool
  | false, b, d => b = 0x3c && d = 0x25
  | true, b, d => b = 0x25 && d = 0x3e

/-- A character that is no part of a delimiter is none by its byte either. -/
theorem isMark_eq_false {inTag : Bool} {c : Char} {s : Text} (hc : c.toNat < 0x80)
    (h : ∀ d ∈ s.head?, Attribute.isDelimiter inTag c d = false) :
    ∀ d ∈ (bytes s).head?, isMark inTag (UInt8.ofNat c.toNat) d = false := by
  intro d hd
  rw [Bool.eq_false_iff]
  intro hmark
  cases inTag with
  | false =>
      obtain ⟨hbyte, rfl⟩ : UInt8.ofNat c.toNat = 0x3c ∧ d = 0x25 := by simpa [isMark] using hmark
      obtain rfl : c = '<' := byte_inj hc (by decide) hbyte
      exact absurd (h '%' (head?_of_bytes (by decide) hd)) (by decide)
  | true =>
      obtain ⟨hbyte, rfl⟩ : UInt8.ofNat c.toNat = 0x25 ∧ d = 0x3e := by simpa [isMark] using hmark
      obtain rfl : c = '%' := byte_inj hc (by decide) hbyte
      exact absurd (h '>' (head?_of_bytes (by decide) hd)) (by decide)

section

variable {value : Text} {inTag : Bool} {start? : Option Nat} {offset : Nat}

theorem classTokensFrom_opening (s : Text) :
    classTokensFrom value false start? offset (bytes ('<' :: '%' :: s))
      = classTokensFrom value true (some (start?.getD offset)) (offset + 2) (bytes s) := by
  rw [bytes_cons, bytes_cons]
  rfl

theorem classTokensFrom_closing (s : Text) :
    classTokensFrom value true start? offset (bytes ('%' :: '>' :: s))
      = classTokensFrom value false start? (offset + 2) (bytes s) := by
  rw [bytes_cons, bytes_cons]
  rfl

theorem classTokensFrom_cons {b : UInt8} {rest : List UInt8} (h : ∀ d ∈ rest.head?, isMark inTag b d = false) :
    classTokensFrom value inTag start? offset (b :: rest)
      = if !inTag && isBlankByte b then do
          let token ← tokenUpTo value start? offset
          return token ++ (← classTokensFrom value inTag none (offset + 1) rest)
        else classTokensFrom value inTag (some (start?.getD offset)) (offset + 1) rest := by
  rw [classTokensFrom]
  · rintro rest rfl rfl rfl
    simp [isMark] at h
  · rintro rest rfl rfl rfl
    simp [isMark] at h

/-- The bytes of a wide character belong to a token. -/
theorem classTokensFrom_wide {wide : List UInt8} (hne : wide ≠ []) (hwide : ∀ b ∈ wide, 0x80 ≤ b.toNat)
    (rest : List UInt8) :
    classTokensFrom value inTag start? offset (wide ++ rest)
      = classTokensFrom value inTag (some (start?.getD offset)) (offset + wide.length) rest := by
  induction wide generalizing start? offset with
  | nil => exact absurd rfl hne
  | cons b bs ih =>
      obtain ⟨hb, hbs⟩ := List.forall_mem_cons.mp hwide
      have hstep : classTokensFrom value inTag start? offset (b :: (bs ++ rest))
          = classTokensFrom value inTag (some (start?.getD offset)) (offset + 1) (bs ++ rest) := by
        have hblank : isBlankByte b = false := by simp [isBlankByte, ne_of_wide hb]
        rw [classTokensFrom_cons, hblank, Bool.and_false]
        · rfl
        · intro d _
          cases inTag <;> simp [isMark, ne_of_wide hb]
      rw [List.cons_append, hstep]
      cases bs with
      | nil => rfl
      | cons d ds =>
          rw [ih (List.cons_ne_nil d ds) hbs, List.length_cons]
          rw [Option.getD_some, Nat.add_assoc, Nat.add_comm 1]
          rfl

/-- A character that is no part of a delimiter ends a token if it is a blank, and belongs to one else. -/
theorem classTokensFrom_char {c : Char} {s : Text}
    (h : ∀ d ∈ s.head?, Attribute.isDelimiter inTag c d = false) :
    classTokensFrom value inTag start? offset (bytes (c :: s))
      = if !inTag && Text.isAsciiBlank c then do
          let token ← tokenUpTo value start? offset
          return token ++ (← classTokensFrom value inTag none (offset + c.utf8Size) (bytes s))
        else classTokensFrom value inTag (some (start?.getD offset)) (offset + c.utf8Size) (bytes s) := by
  rw [bytes_cons]
  rcases Nat.lt_or_ge c.toNat 0x80 with hc | hc
  · have hsize : c.utf8Size = 1 := by
      rw [← String.length_utf8EncodeChar, utf8EncodeChar_ascii hc, List.length_singleton]
    rw [utf8EncodeChar_ascii hc, List.singleton_append, classTokensFrom_cons, isBlankByte_ascii hc, hsize]
    exact isMark_eq_false hc h
  · have hblank : Text.isAsciiBlank c = false := by
      have hne : ∀ d : Char, d.toNat < 0x80 → c ≠ d := by
        rintro d hd rfl
        exact Nat.not_le.mpr hd hc
      simp [Text.isAsciiBlank, hne]
    rw [classTokensFrom_wide String.utf8EncodeChar_ne_nil (le_of_mem_utf8EncodeChar hc), hblank, Bool.and_false,
      String.length_utf8EncodeChar]
    rfl

end

/-! ## Tokens -/

/-- Where the token starts whose characters up to here are `run`. -/
def startOf (before run : Text) : Option Nat := if run = [] then none else some before.byteSize

theorem tokenUpTo_eq {value before run rest : Text} (hvalue : value = before ++ (run ++ rest)) :
    tokenUpTo value (startOf before run) (before.byteSize + run.byteSize) = .ok ([run].filter (· != [])) := by
  cases run with
  | nil => rfl
  | cons c cs =>
      have hslice : value.slice before.byteSize (before.byteSize + Text.byteSize (c :: cs)) = .ok (c :: cs) :=
        Text.slice_eq_ok_iff.mpr ⟨before, rest, hvalue, rfl, rfl⟩
      simp [startOf, tokenUpTo, hslice]

theorem startOf_concat (before run : Text) (c : Char) :
    some ((startOf before run).getD (before.byteSize + run.byteSize)) = startOf before (run ++ [c]) := by
  cases run <;> simp [startOf, Text.byteSize]

/-- What is left when a token is read is the rest of that token and the tokens behind it. -/
theorem classTokensFrom_eq {value rest : Text} {inTag : Bool} (before run : Text)
    (hvalue : value = before ++ (run ++ rest)) (hrun : inTag = true → run ≠ []) :
    classTokensFrom value inTag (startOf before run) (before.byteSize + run.byteSize) (bytes rest)
      = .ok ((run.foldr Text.consHead (Attribute.classRuns inTag rest)).filter (· != [])) := by
  induction inTag, rest using Attribute.readInduction generalizing before run with
  | nil inTag =>
      have hend : classTokensFrom value inTag (startOf before run) (before.byteSize + run.byteSize) (bytes [])
          = tokenUpTo value (startOf before run) value.byteSize := by
        cases inTag <;> rfl
      have hsize : value.byteSize = before.byteSize + run.byteSize := by
        rw [hvalue, List.append_nil, Text.byteSize_append]
      rw [hend, hsize, tokenUpTo_eq hvalue, Attribute.classRuns, Text.foldr_consHead, List.append_nil]
  | delimiter inTag c d rest h ih =>
      have hrest := ih before (run ++ [c, d]) (by simp [hvalue]) (fun _ => by simp)
      have hstart : startOf before (run ++ [c, d]) = some before.byteSize := if_neg (by simp)
      rw [hstart, Text.byteSize_append, List.foldr_append, ← Nat.add_assoc] at hrest
      rw [Attribute.classRuns_delimiter h]
      cases inTag with
      | false =>
          obtain ⟨rfl, rfl⟩ : c = '<' ∧ d = '%' := by simpa [Attribute.isDelimiter] using h
          have hopen : some ((startOf before run).getD (before.byteSize + run.byteSize)) = some before.byteSize :=
            (startOf_concat before run '<').trans (if_neg (by simp))
          rw [classTokensFrom_opening, hopen]
          exact hrest
      | true =>
          obtain ⟨rfl, rfl⟩ : c = '%' ∧ d = '>' := by simpa [Attribute.isDelimiter] using h
          rw [classTokensFrom_closing, show startOf before run = some before.byteSize from if_neg (hrun rfl)]
          exact hrest
  | char inTag c rest h ih =>
      rw [classTokensFrom_char h, Attribute.classRuns_cons h, tokenUpTo_eq hvalue]
      split
      · rename_i hblank
        have hout : inTag = false := by simpa using (Bool.and_eq_true_iff.mp hblank).1
        have hrest := ih (before ++ (run ++ [c])) [] (by simp [hvalue]) (by simp [hout])
        rw [Text.byteSize_append, Text.byteSize_concat, ← Nat.add_assoc] at hrest
        have hruns : run.foldr Text.consHead ([] :: Attribute.classRuns inTag rest)
            = [run] ++ Attribute.classRuns inTag rest := by
          rw [Text.foldr_consHead, List.append_nil, List.singleton_append]
        rw [hruns, List.filter_append]
        exact congrArg (· >>= fun tokens => pure (_ ++ tokens)) hrest
      · have hrest := ih before (run ++ [c]) (by simp [hvalue]) (fun _ => by simp)
        rw [← startOf_concat, Text.byteSize_concat, List.foldr_append, ← Nat.add_assoc] at hrest
        exact hrest

@[simp]
theorem classTokens_eq (value : Text) : classTokens value = .ok (Attribute.classTokens value) :=
  classTokensFrom_eq [] [] rfl (by simp)

@[simp]
theorem mergeClass_eq (base additional : Text) :
    mergeClass base additional = .ok (Attribute.mergeClass base additional) := by
  simp [mergeClass, Attribute.mergeClass]

end Haml.Sliced
