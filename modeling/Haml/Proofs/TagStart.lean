import Haml.Proofs.Element
import Haml.Proofs.Source

/-!
# Where tags start

A tag line starts with a name, with classes and ids, or with both, and is read on from where its chain of
classes and ids ends. What it starts with can be told from the tag that is read, and a text that starts in
this way is read as such whatever stands behind the chain, if the chain does not go on with it.
-/

namespace Haml

namespace Shorthand

variable {s rest : Text}

/-- The characters of classes and ids, which start with a sigil. -/
structure IsRun (s : Text) : Prop where
  head : ∀ c ∈ s.head?, isSigil c = true
  chars : ∀ c ∈ s, isChainChar c = true ∨ c = '#'

/-- A text that no chain goes on with. -/
def EndsChain (rest : Text) : Prop := chain rest = ([], rest)

theorem eq_of_isSigil {c : Char} (h : isSigil c = true) : c = '.' ∨ c = '#' := by
  simpa [isSigil] using h

theorem isChainChar_of_isNameChar {c : Char} (h : Text.isNameChar c = true) : isChainChar c = true := by
  simp [isChainChar, h]

theorem of_mem_chain (s : Text) : ∀ c ∈ (chain s).1, isChainChar c = true ∨ c = '#' := by
  induction s with
  | nil => exact fun _ hc => by cases hc
  | cons c cs ih =>
      rw [chain]
      split
      · rename_i hc
        refine List.forall_mem_cons.mpr ⟨?_, ih⟩
        exact (Bool.or_eq_true_iff.mp hc).imp_right fun hhash =>
          of_decide_eq_true (Bool.and_eq_true_iff.mp hhash).1
      · exact fun _ hc => by cases hc

/-- Characters of a name do not start a token. -/
theorem tokens_append {name : Text} (h : ∀ c ∈ name, isSigil c = false) (rest : Text) :
    tokens (name ++ rest) = tokens rest := by
  induction name with
  | nil => rfl
  | cons c cs ih =>
      obtain ⟨hc, hcs⟩ := List.forall_mem_cons.mp h
      rw [List.cons_append, tokens, hc]
      exact ih hcs

/-- A token runs from its sigil to the next. -/
theorem tokens_cons_append {sigil : Char} {name : Text} (hsigil : isSigil sigil = true)
    (hname : ∀ c ∈ name, isSigil c = false) (hrest : ∀ c ∈ rest.head?, isSigil c = true) :
    tokens (sigil :: (name ++ rest)) = (ofSigil? sigil name).toList ++ tokens rest := by
  have htake : (name ++ rest).takeWhile (fun c => !isSigil c) = name := by
    rw [List.takeWhile_append_of_pos fun c hc => by simp [hname c hc]]
    cases rest with
    | nil => simp
    | cons c cs => simp [hrest c rfl]
  rw [tokens, if_pos hsigil, htake, tokens_append hname]

/-- A chain ends before a text that it does not go on with, unless a hash comes before a brace. -/
theorem chain_append (hchars : ∀ c ∈ s, isChainChar c = true ∨ c = '#') (hrest : EndsChain rest)
    (hlast : s.getLast? = some '#' → rest.head? ≠ some '{') : chain (s ++ rest) = (s, rest) := by
  induction s with
  | nil => exact hrest
  | cons c cs ih =>
      obtain ⟨hc, hcs⟩ := List.forall_mem_cons.mp hchars
      have htail : cs.getLast? = some '#' → rest.head? ≠ some '{' := by
        intro heq
        refine hlast ?_
        rw [List.getLast?_cons, heq]
        rfl
      have hmember : (isChainChar c || c = '#' && (cs ++ rest).head? != some '{') = true := by
        rcases hc with hc | rfl
        · simp [hc]
        · cases cs with
          | nil => simp [hlast rfl]
          | cons d ds =>
              have hd : d ≠ '{' := by
                rintro rfl
                rcases hcs '{' List.mem_cons_self with hd | hd
                · exact absurd hd (by decide)
                · cases hd
              simp [hd]
      rw [List.cons_append, chain, if_pos hmember, ih hcs htail]
      rfl

end Shorthand

namespace Tag

open Shorthand

variable {stem name chain rest : Text}

/--
What a tag line starts with, the name of its element, and its chain: `%` and a name before a chain that may
be empty, or a chain with a class or an id.
-/
inductive IsStem : Text → Text → Text → Prop where
  | named {name chain : Text} : Html.IsName name → IsRun chain →
      IsStem ('%' :: (name ++ chain)) name chain
  | generic {chain : Text} : IsRun chain → tokens chain ≠ [] → IsStem chain Html.genericElement chain

theorem splitShorthand_append (hchain : IsRun chain)
    (hrest : Shorthand.chain (chain ++ rest) = (chain, rest)) :
    splitShorthand (chain ++ rest) = (tokens chain, rest) := by
  rw [splitShorthand, hrest]
  split
  · rfl
  · rename_i hsigil
    cases chain with
    | nil => rfl
    | cons c cs => exact absurd (by simp [hchain.head c rfl]) hsigil

/-- A line is read as what it starts with, whatever stands behind its chain. -/
theorem IsStem.parse? (h : IsStem stem name chain)
    (hrest : Shorthand.chain (chain ++ rest) = (chain, rest)) :
    parse? (stem ++ rest) = some (ofParts name (tokens chain) rest) := by
  cases h with
  | named hname hchain =>
      have hstop : ∀ c ∈ (chain ++ rest).head?, Text.isNameChar c = false := by
        intro c hc
        rw [Bool.eq_false_iff]
        intro hchar
        cases chain with
        | nil =>
            obtain ⟨cs, rfl⟩ := List.head?_eq_some_iff.mp hc
            rw [List.nil_append, Shorthand.chain, if_pos (by simp [isChainChar_of_isNameChar hchar])] at hrest
            cases hrest
        | cons d ds =>
            obtain rfl : d = c := Option.some.inj hc
            rcases eq_of_isSigil (hchain.head d rfl) with rfl | rfl <;>
              cases hchar
      obtain ⟨htake, hdrop⟩ : (chain ++ rest).takeWhile Text.isNameChar = []
          ∧ (chain ++ rest).dropWhile Text.isNameChar = chain ++ rest := by
        cases hall : chain ++ rest with
        | nil => exact ⟨rfl, rfl⟩
        | cons c cs => simp [hstop c (by simp [hall])]
      simp only [List.cons_append, List.append_assoc, Tag.parse?,
        List.takeWhile_append_of_pos hname.isNameChar, List.dropWhile_append_of_pos hname.isNameChar,
        htake, hdrop, List.append_nil, if_neg hname.ne_nil, splitShorthand_append hchain hrest]
  | generic hchain htokens =>
      have hsplit := splitShorthand_append hchain hrest
      unfold Tag.parse?
      split
      · rename_i cs heq
        cases stem with
        | nil => exact absurd rfl htokens
        | cons c cs =>
            cases heq
            exact absurd (hchain.head '%' rfl) (by decide)
      · rw [hsplit]
        simp only [if_neg htokens]

theorem of_splitShorthand (s : Text) :
    ∃ chain, IsRun chain ∧ (splitShorthand s).1 = tokens chain ∧ s = chain ++ (splitShorthand s).2 := by
  unfold splitShorthand
  split
  · rename_i hsigil
    refine ⟨(Shorthand.chain s).1, ⟨fun c hc => ?_, of_mem_chain s⟩, rfl, (append_chain s).symm⟩
    have hhead : s.head? = some c := by
      rw [← append_chain s, List.head?_append, hc]
      rfl
    simpa [hhead] using hsigil
  · exact ⟨[], ⟨by simp, by simp⟩, rfl, rfl⟩

/-- A tag is read off a line that starts in this way. -/
theorem exists_isStem {s : Text} {tag : Tag} (h : parse? s = some tag) :
    ∃ stem name chain rest, IsStem stem name chain ∧ s = stem ++ rest
      ∧ tag = ofParts name (tokens chain) rest := by
  unfold parse? at h
  split at h
  · rename_i cs
    obtain ⟨hne, h⟩ := Option.ite_none_left_eq_some.mp h
    obtain ⟨chain, hchain, htokens, hrest⟩ := of_splitShorthand (cs.dropWhile Text.isNameChar)
    have hname : Html.IsName (cs.takeWhile Text.isNameChar) :=
      ⟨hne, fun c hc => List.mem_takeWhile_imp hc⟩
    have hline : '%' :: cs = '%' :: (cs.takeWhile Text.isNameChar ++ chain)
        ++ (splitShorthand (cs.dropWhile Text.isNameChar)).2 := by
      rw [List.cons_append, List.append_assoc, ← hrest, List.takeWhile_append_dropWhile]
    refine ⟨_, _, chain, _, .named hname hchain, hline, ?_⟩
    rw [← htokens]
    exact (Option.some.inj h).symm
  · obtain ⟨hne, h⟩ := Option.ite_none_left_eq_some.mp h
    obtain ⟨chain, hchain, htokens, hrest⟩ := of_splitShorthand s
    refine ⟨chain, _, chain, _, .generic hchain (htokens ▸ hne), hrest, ?_⟩
    rw [← htokens]
    exact (Option.some.inj h).symm

end Tag

end Haml
