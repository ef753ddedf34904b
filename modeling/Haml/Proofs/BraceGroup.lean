import Haml.Proofs.Reading

/-!
# Brace groups

The text in a brace group is balanced: the quoted regions in it are ended, and the braces outside of them
are in pairs. Main statement: the search for the closing brace accepts exactly the groups of this grammar, a
text starts with one such group at most, and nothing is found only if it starts with none.
-/

namespace Haml.Code

/-! ## The grammar -/

/--
What stands in a region between `previous` and the quote that ends it: a quote of its kind comes right
after a backslash, and the ending quote does not.
-/
structure IsRegion (quote previous : Char) (body : Text) : Prop where
  hidden : (previous :: body).IsChain fun before c => c = quote → before = '\\'
  last_ne : (previous :: body).getLast? ≠ some '\\'

/-- Ordinary characters, quoted regions, and braces around balanced text. -/
inductive IsBalanced : Text → Prop where
  | nil : IsBalanced []
  | char {c : Char} {s : Text} : isQuote c = false → c ≠ '{' → c ≠ '}' → IsBalanced s →
      IsBalanced (c :: s)
  /-- The first character of a region comes after the quote that opens it. -/
  | region {quote : Char} {body s : Text} : isQuote quote = true → IsRegion quote quote body →
      IsBalanced s → IsBalanced (quote :: (body ++ quote :: s))
  | braces {inner s : Text} : IsBalanced inner → IsBalanced s → IsBalanced ('{' :: (inner ++ '}' :: s))

/-- The text starts, blanks aside, with the group, and goes on with what the group leaves. -/
structure Braced.StartsText (group : Braced) (s : Text) : Prop where
  trimStart_eq : Text.trimStart s = '{' :: (group.content ++ '}' :: group.remaining)
  isBalanced : IsBalanced group.content

/-! ## Regions -/

variable {quote previous : Char} {count : Count} {depth depth' : Nat} {s body : Text}

theorem isRegion_nil_iff : IsRegion quote previous [] ↔ previous ≠ '\\' := by
  constructor
  · rintro ⟨_, hlast⟩ rfl
    exact hlast rfl
  · intro h
    exact ⟨.singleton previous, by simpa using h⟩

theorem isRegion_cons_iff {c : Char} {cs : Text} :
    IsRegion quote previous (c :: cs) ↔ (c = quote → previous = '\\') ∧ IsRegion quote c cs := by
  constructor
  · rintro ⟨hhidden, hlast⟩
    obtain ⟨hc, hrest⟩ := List.isChain_cons_cons.mp hhidden
    exact ⟨hc, hrest, by rwa [List.getLast?_cons_cons] at hlast⟩
  · rintro ⟨hc, hhidden, hlast⟩
    exact ⟨.cons_cons hc hhidden, by rwa [List.getLast?_cons_cons]⟩

/-- Behind the quote that ends a region the reading is out of it. -/
theorem IsRegion.past? (h : IsRegion quote previous body) (s : Text) :
    past? count (.quoted quote (previous = '\\')) depth (body ++ quote :: s)
      = Code.past? count .code depth s := by
  induction body generalizing previous with
  | nil =>
      have hends : (Quoting.quoted quote (previous = '\\')).next quote = .code := by
        simp [Quoting.next, isRegion_nil_iff.mp h]
      rw [List.nil_append, Code.past?, hends]
  | cons c cs ih =>
      obtain ⟨hc, hcs⟩ := isRegion_cons_iff.mp h
      have hstays : (Quoting.quoted quote (previous = '\\')).next c = .quoted quote (c = '\\') := by
        by_cases hquote : c = quote <;> simp [Quoting.next, hquote, hc]
      rw [List.cons_append, Code.past?, hstays, ih hcs]

/-- A reading that comes out of a region has found the quote that ends it. -/
theorem exists_region (h : past? count (.quoted quote (previous = '\\')) depth s = some (.code, depth')) :
    ∃ body rest, s = body ++ quote :: rest ∧ IsRegion quote previous body
      ∧ past? count .code depth rest = some (.code, depth') := by
  induction s generalizing previous with
  | nil => cases h
  | cons c cs ih =>
      rw [past?] at h
      by_cases hends : c = quote ∧ previous ≠ '\\'
      · obtain ⟨rfl, hprevious⟩ := hends
        have hnext : (Quoting.quoted c (previous = '\\')).next c = .code := by
          simp [Quoting.next, hprevious]
        exact ⟨[], cs, rfl, isRegion_nil_iff.mpr hprevious, hnext ▸ h⟩
      · have hhidden : c = quote → previous = '\\' := by simpa using hends
        have hnext : (Quoting.quoted quote (previous = '\\')).next c = .quoted quote (c = '\\') := by
          by_cases hquote : c = quote <;> simp [Quoting.next, hquote, hhidden]
        obtain ⟨body, rest, rfl, hbody, hrest⟩ := ih (hnext ▸ h)
        exact ⟨c :: body, rest, rfl, isRegion_cons_iff.mpr ⟨hhidden, hbody⟩, hrest⟩

/-! ## Balanced texts -/

/-- In any number of braces a balanced text leads back to where it started. -/
theorem IsBalanced.past? (h : IsBalanced s) (depth : Nat) :
    past? (countDelimiters '{' '}') .code (depth + 1) s = some (.code, depth + 1) := by
  induction h generalizing depth with
  | nil => rfl
  | @char c s hquote hopening hclosing _ ih =>
      have hcount : countDelimiters '{' '}' (depth + 1) c = some (depth + 1) := by
        simp [countDelimiters, hopening, hclosing]
      rw [Code.past?, hquote, hcount]
      exact ih depth
  | @region quote body s hquote hbody _ ih =>
      have hslash : quote ≠ '\\' := by
        rintro rfl
        cases hquote
      have hregion : Code.past? (countDelimiters '{' '}') (.quoted quote (quote = '\\')) (depth + 1)
            (body ++ quote :: s) = Code.past? (countDelimiters '{' '}') .code (depth + 1) s :=
        hbody.past? s
      rw [Code.past?, if_pos hquote]
      simpa [hslash, ih depth] using hregion
  | @braces inner s _ _ hinner hs =>
      have hopening : countDelimiters '{' '}' (depth + 1) '{' = some (depth + 2) := rfl
      have hclosing : countDelimiters '{' '}' (depth + 2) '}' = some (depth + 1) := by
        simp [countDelimiters]
      rw [Code.past?, hopening]
      refine (past?_trans (hinner (depth + 1)) _).trans ?_
      rw [Code.past?, hclosing]
      exact hs depth

/-- What is behind `n` open braces if all of them are closed: balanced text, and so behind each brace. -/
def ClosesBraces : Nat → Text → Prop
  | 0, s => IsBalanced s
  | n + 1, s => ∃ inner rest, IsBalanced inner ∧ s = inner ++ '}' :: rest ∧ ClosesBraces n rest

/-- What may come in front of balanced text may come in front of text that closes braces. -/
theorem ClosesBraces.append {n : Nat} (h : ClosesBraces n s) (front : Text)
    (hfront : ∀ t, IsBalanced t → IsBalanced (front ++ t)) : ClosesBraces n (front ++ s) := by
  cases n with
  | zero => exact hfront s h
  | succ n =>
      obtain ⟨inner, rest, hinner, rfl, hrest⟩ := h
      exact ⟨front ++ inner, rest, hfront inner hinner, (List.append_assoc _ _ _).symm, hrest⟩

theorem ClosesBraces.region {n : Nat} (hquote : isQuote quote = true) (hbody : IsRegion quote quote body)
    (h : ClosesBraces n s) : ClosesBraces n (quote :: (body ++ quote :: s)) := by
  have happend := h.append (quote :: (body ++ [quote])) fun t ht => by
    simpa using IsBalanced.region hquote hbody ht
  simpa using happend

/-- An open brace is closed by the first of the closing braces. -/
theorem ClosesBraces.brace {n : Nat} (h : ClosesBraces (n + 1) s) : ClosesBraces n ('{' :: s) := by
  obtain ⟨inner, rest, hinner, rfl, hrest⟩ := h
  have happend := hrest.append ('{' :: (inner ++ ['}'])) fun t ht => by
    simpa using IsBalanced.braces hinner ht
  simpa using happend

/-- A reading that gets out of `n` inner braces has passed text that closes them. -/
theorem closesBraces_of_past? {n : Nat}
    (h : past? (countDelimiters '{' '}') .code (n + 1) s = some (.code, 1)) : ClosesBraces n s := by
  -- The induction is on the length, since a region is taken in one piece.
  induction hlength : s.length using Nat.strong_induction_on generalizing s n with
  | _ length ih =>
      subst hlength
      cases s with
      | nil =>
          cases h
          exact .nil
      | cons c cs =>
          rw [past?] at h
          cases hquote : isQuote c with
          | true =>
              have hslash : c ≠ '\\' := by
                rintro rfl
                cases hquote
              rw [if_pos hquote] at h
              have hinside : past? (countDelimiters '{' '}') (.quoted c (c = '\\')) (n + 1) cs
                  = some (.code, 1) := by
                simpa [hslash] using h
              obtain ⟨body, rest, rfl, hbody, hrest⟩ := exists_region hinside
              have hshort : rest.length < (c :: (body ++ c :: rest)).length := by
                simp only [List.length_cons, List.length_append]
                omega
              exact (ih _ hshort hrest rfl).region hquote hbody
          | false =>
              rw [hquote] at h
              obtain ⟨depth, hcount, hrest⟩ := Option.bind_eq_some_iff.mp h
              have hlater : ∀ {m}, depth = m + 1 → ClosesBraces m cs := fun hdepth =>
                ih cs.length (Nat.lt_succ_self _) (hdepth ▸ hrest) rfl
              rw [countDelimiters] at hcount
              by_cases hopening : c = '{'
              · subst hopening
                cases hcount
                exact (hlater rfl).brace
              · by_cases hclosing : c = '}'
                · subst hclosing
                  cases n with
                  | zero => simp at hcount
                  | succ n => exact ⟨[], cs, .nil, rfl, hlater (by simpa using hcount.symm)⟩
                · have hdepth : depth = n + 1 := by simpa [hopening, hclosing] using hcount.symm
                  exact (hlater hdepth).append [c] fun t => .char hquote hopening hclosing

theorem isBalanced_iff : IsBalanced s ↔ past? (countDelimiters '{' '}') .code 1 s = some (.code, 1) :=
  ⟨fun h => h.past? 0, fun h => closesBraces_of_past? (n := 0) h⟩

/-! ## Groups -/

theorem braced?_eq_some_iff {group : Braced} : braced? s = some group ↔ group.StartsText s := by
  constructor
  · intro h
    have hstart := of_braced? h
    refine ⟨hstart, isBalanced_iff.mpr ((splitAtClose_append_iff group.remaining).mp ?_)⟩
    rw [braced?, hstart] at h
    obtain ⟨parts, hparts, rfl⟩ := Option.map_eq_some_iff.mp h
    exact hparts
  · rintro ⟨hstart, hbalanced⟩
    rw [braced?, hstart]
    simp [(splitAtClose_append_iff group.remaining).mpr (isBalanced_iff.mp hbalanced)]

/--
The brace group that is found at the start of a text is the group of the grammar. There is at most one way to
take such a group off the text, and none is found exactly if there is no way.
-/
theorem braced?_iff_startsText (s : Text) :
    (∀ group, braced? s = some group ↔ group.StartsText s)
      ∧ (∀ group other : Braced, group.StartsText s → other.StartsText s → group = other)
      ∧ (braced? s = none ↔ ∀ group : Braced, ¬ group.StartsText s) := by
  refine ⟨fun group => braced?_eq_some_iff, fun group other h hother => ?_, ?_⟩
  · exact Option.some.inj ((braced?_eq_some_iff.mpr h).symm.trans (braced?_eq_some_iff.mpr hother))
  · rw [Option.eq_none_iff_forall_ne_some]
    exact forall_congr' fun group => not_congr braced?_eq_some_iff

/-- Braces in quotes close nothing; a region that is not ended leaves no group. -/
theorem startsText_nested :
    (∀ group : Braced, group.StartsText " \x7b a: '\x7d', b: \x7b c: \"\\\"\x7b\" \x7d \x7d= x".toList
        ↔ group = ⟨" a: '\x7d', b: \x7b c: \"\\\"\x7b\" \x7d ".toList, "= x".toList⟩)
      ∧ ∀ group : Braced, ¬ group.StartsText "\x7b a: 'b \x7d".toList := by
  obtain ⟨hfound, hunique, _⟩ :=
    braced?_iff_startsText " \x7b a: '\x7d', b: \x7b c: \"\\\"\x7b\" \x7d \x7d= x".toList
  obtain ⟨_, _, hnone⟩ := braced?_iff_startsText "\x7b a: 'b \x7d".toList
  have hgroup :=
    (hfound ⟨" a: '\x7d', b: \x7b c: \"\\\"\x7b\" \x7d ".toList, "= x".toList⟩).mp (by decide +kernel)
  refine ⟨fun group => ⟨fun h => hunique _ _ h hgroup, fun h => h ▸ hgroup⟩, ?_⟩
  exact hnone.mp (by decide +kernel)

end Haml.Code
