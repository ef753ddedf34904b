import Haml.Proofs.Class
import Mathlib.Data.List.Dedup

/-!
# Class values as ordered sets

Merging two class values is the union of their tokens in the order of their first appearance. The
merged value is a text again, so the union is one only if cutting that text gives the same tokens back.
It does as long as no token but the last leaves a code tag open: behind such a token the space that
parts it from the next one would be taken for a part of the tag.
-/

namespace Haml.Attribute

/-! ## Lists without duplicates -/

section EraseDups

variable {α : Type} [BEq α] [LawfulBEq α] [DecidableEq α]

/-- Keeping first appearances is keeping last appearances of the reverse. -/
theorem eraseDups_eq_reverse_dedup (l : List α) : l.eraseDups = l.reverse.dedup.reverse := by
  induction l using List.reverseRecOn with
  | nil => rfl
  | append_singleton l a ih =>
      rw [List.eraseDups_append, List.cons_removeAll, List.nil_removeAll, List.reverse_append,
        List.reverse_singleton, List.singleton_append, List.dedup_cons, ih]
      by_cases h : a ∈ l <;> simp [h, List.eraseDups_cons]

theorem eraseDups_sublist (l : List α) : l.eraseDups.Sublist l := by
  rw [eraseDups_eq_reverse_dedup]
  simpa using (List.dedup_sublist l.reverse).reverse

theorem nodup_eraseDups (l : List α) : l.eraseDups.Nodup := by
  rw [eraseDups_eq_reverse_dedup]
  exact List.nodup_reverse.mpr (List.nodup_dedup _)

theorem eraseDups_append_eraseDups_left (l m : List α) :
    (l.eraseDups ++ m).eraseDups = (l ++ m).eraseDups := by
  simp [eraseDups_eq_reverse_dedup, List.dedup_append, List.dedup_idem]

theorem dedup_dedup_append (l m : List α) : (l.dedup ++ m).dedup = (l ++ m).dedup := by
  induction l with
  | nil => rfl
  | cons a l ih =>
      by_cases h : a ∈ l
      · rw [List.dedup_cons_of_mem h, ih, List.cons_append,
          List.dedup_cons_of_mem (List.mem_append_left m h)]
      · rw [List.dedup_cons_of_notMem h, List.cons_append, List.cons_append, List.dedup_cons,
          List.dedup_cons, ih]
        simp

theorem eraseDups_append_eraseDups_right (l m : List α) :
    (l ++ m.eraseDups).eraseDups = (l ++ m).eraseDups := by
  simp [eraseDups_eq_reverse_dedup, dedup_dedup_append]

end EraseDups

/-! ## Rows of tokens -/

variable {s base additional : Text} {tokens rest : List Text}

/-- Tokens that stay apart with single spaces between them: all but the last have closed their tags. -/
inductive IsRow : List Text → Prop
  | nil : IsRow []
  | last {token : Text} (htoken : classTokens token = [token]) : IsRow [token]
  | cons {token : Text} {tokens : List Text} (htoken : classTokens token = [token])
      (hend : endsInTag false token = false) (htokens : IsRow tokens) : IsRow (token :: tokens)

namespace IsRow

theorem sublist (h : IsRow tokens) (hpart : rest.Sublist tokens) : IsRow rest := by
  induction h generalizing rest with
  | nil =>
      rw [List.sublist_nil.mp hpart]
      exact .nil
  | last htoken =>
      rcases List.sublist_singleton.mp hpart with rfl | rfl
      · exact .nil
      · exact .last htoken
  | cons htoken hend _ ih =>
      rcases List.sublist_cons_iff.mp hpart with hrest | ⟨rest, rfl, hrest⟩
      · exact ih hrest
      · exact .cons htoken hend (ih hrest)

theorem append_gapless (hgap : hasGap false s = false) (hend : endsInTag false s = false)
    (h : IsRow tokens) : IsRow (classTokens s ++ tokens) := by
  by_cases hne : s = []
  · subst hne
    exact h
  · rw [classTokens_of_gapless hgap hne]
    exact .cons (classTokens_of_gapless hgap hne) hend h

/-- The tokens of a value that leaves no tag open may stand in front of others. -/
theorem append (hend : endsInTag false s = false) (h : IsRow tokens) :
    IsRow (classTokens s ++ tokens) := by
  induction s using gapInduction with
  | gapless s hgap => exact h.append_gapless hgap hend
  | gap head blank rest hgap hhead hblank ih =>
      rw [endsInTag_append_blank hhead hblank] at hend
      rw [classTokens_append_blank hhead hblank, List.append_assoc]
      exact (ih hend).append_gapless hgap hhead

theorem of_classTokens (s : Text) : IsRow (classTokens s) := by
  induction s using gapInduction with
  | gapless s hgap =>
      by_cases hne : s = []
      · subst hne
        exact .nil
      · rw [classTokens_of_gapless hgap hne]
        exact .last (classTokens_of_gapless hgap hne)
  | gap head blank rest hgap hhead hblank ih =>
      rw [classTokens_append_blank hhead hblank]
      exact ih.append_gapless hgap hhead

theorem classTokens_join (h : IsRow tokens) : classTokens (Text.join [' '] tokens) = tokens := by
  induction h with
  | nil => rfl
  | last htoken => simpa [Text.join] using htoken
  | @cons token tokens htoken hend _ ih =>
      cases tokens with
      | nil => simpa [Text.join] using htoken
      | cons next rest =>
          rw [Text.join_cons_cons, List.singleton_append, classTokens_append_blank hend rfl, htoken,
            ih, List.singleton_append]

end IsRow

/-! ## Merging -/

theorem mergeClass_eq_join (base additional : Text) :
    mergeClass base additional
      = Text.join [' '] (classTokens base ++ classTokens additional).eraseDups := by
  rw [mergeClass, distinct_eq_eraseDups]

theorem classTokens_mergeClass_eq_eraseDups (hbase : endsInTag false base = false) (additional : Text) :
    classTokens (mergeClass base additional)
      = (classTokens base ++ classTokens additional).eraseDups := by
  have hrow : IsRow (classTokens base ++ classTokens additional) :=
    (IsRow.of_classTokens additional).append hbase
  rw [mergeClass_eq_join, (hrow.sublist (eraseDups_sublist _)).classTokens_join]

theorem mergeClass_assoc (hbase : endsInTag false base = false)
    (hadditional : endsInTag false additional = false) (third : Text) :
    mergeClass (mergeClass base additional) third = mergeClass base (mergeClass additional third) := by
  rw [mergeClass_eq_join (mergeClass base additional) third,
    mergeClass_eq_join base (mergeClass additional third),
    classTokens_mergeClass_eq_eraseDups hbase, classTokens_mergeClass_eq_eraseDups hadditional]
  refine congrArg (Text.join [' ']) ?_
  calc ((classTokens base ++ classTokens additional).eraseDups ++ classTokens third).eraseDups
      = (classTokens base ++ classTokens additional ++ classTokens third).eraseDups :=
        eraseDups_append_eraseDups_left _ _
    _ = (classTokens base ++ (classTokens additional ++ classTokens third)).eraseDups := by
        rw [List.append_assoc]
    _ = (classTokens base ++ (classTokens additional ++ classTokens third).eraseDups).eraseDups :=
        (eraseDups_append_eraseDups_right _ _).symm

/-! ## Tags -/

/--
A code tag within a text, with what is before and behind it: opened outside of all others, and read up
to the first closing delimiter, or to the end of the text if there is none.
-/
structure IsTagBetween (before tag after : Text) : Prop where
  outside : endsInTag false before = false
  read : ∃ inside, ¬ ['%', '>'] <:+: inside
    ∧ (tag = '<' :: '%' :: (inside ++ ['%', '>']) ∨ tag = '<' :: '%' :: inside ∧ after = [])

theorem IsTagBetween.exists_token {before tag after : Text} (h : IsTagBetween before tag after) :
    ∃ head tail, head <:+ before ∧ tail <+: after
      ∧ head ++ tag ++ tail ∈ classTokens (before ++ tag ++ after) := by
  obtain ⟨inside, hinside, htag⟩ := h.read
  have hread : ∀ rest : Text, '>' ∉ rest.head? →
      hasGap false ('<' :: '%' :: (inside ++ rest)) = hasGap true rest := by
    intro rest hrest
    have hpass : hasGap true (inside ++ rest) = inside.foldr (fun _ gap => gap) (hasGap true rest) :=
      read_inside_append hasGap_cons hinside hrest
    rw [hasGap_delimiter rfl, Bool.not_false, hpass, List.foldr_fixed]
  rcases htag with rfl | ⟨rfl, rfl⟩
  · refine exists_token_of_gapless (by simp) ?_ (Apart.of_head? (by simp)) ?_
    · rw [h.outside, hread _ (by simp)]
      rfl
    · have hclose : Apart ['%', '>'] after := Apart.of_getLast? (by simp)
      exact hclose.append_left (by simp) ('<' :: '%' :: inside)
  · refine exists_token_of_gapless (by simp) ?_ (Apart.of_head? (by simp))
      (Apart.of_head? (by simp))
    rw [h.outside]
    simpa [hasGap] using hread [] (by simp)

/-! ## The union -/

/--
A class value whose code tags are all closed is merged with any other into the ordered set of the tokens
of both, each of which stands in it once. Every tag of either value, with the blanks in it, stands within
one of these tokens. Merging three values so comes to the same in both orders.
-/
theorem classTokens_mergeClass (hbase : endsInTag false base = false) (additional : Text) :
    classTokens (mergeClass base additional)
        = (classTokens base ++ classTokens additional).eraseDups
      ∧ (∀ token ∈ classTokens base ++ classTokens additional,
        (classTokens (mergeClass base additional)).count token = 1)
      ∧ (∀ value ∈ [base, additional], ∀ before tag after, value = before ++ tag ++ after →
        IsTagBetween before tag after → ∃ head tail, head <:+ before ∧ tail <+: after
          ∧ head ++ tag ++ tail ∈ classTokens (mergeClass base additional))
      ∧ (endsInTag false additional = false → ∀ third,
        mergeClass (mergeClass base additional) third
          = mergeClass base (mergeClass additional third)) := by
  have hunion := classTokens_mergeClass_eq_eraseDups hbase additional
  have hmem : ∀ {token}, token ∈ classTokens base ++ classTokens additional →
      token ∈ classTokens (mergeClass base additional) := by
    intro token htoken
    rwa [hunion, List.mem_eraseDups]
  refine ⟨hunion, fun token htoken => ?_, ?_, mergeClass_assoc hbase⟩
  · refine List.count_eq_one_of_mem ?_ (hmem htoken)
    rw [hunion]
    exact nodup_eraseDups _
  · intro value hvalue before tag after hsplit htag
    obtain ⟨head, tail, hhead, htail, htoken⟩ := htag.exists_token
    refine ⟨head, tail, hhead, htail, hmem ?_⟩
    rw [← hsplit] at htoken
    rcases List.mem_pair.mp hvalue with rfl | rfl
    · exact List.mem_append_left _ htoken
    · exact List.mem_append_right _ htoken

/-- A tag with a blank in it stands in both values, and the tag at the end of the other one is left open. -/
theorem classTokens_mergeClass_open :
    endsInTag false "a<%= x y %>b  c".toList = false
      ∧ classTokens (mergeClass "a<%= x y %>b  c".toList "c\t<%= z %> a<%= x y %>b d<% open".toList)
        = ["a<%= x y %>b", "c", "<%= z %>", "d<% open"].map String.toList
      ∧ endsInTag false "c\t<%= z %>".toList = false
      ∧ mergeClass (mergeClass "a<%= x y %>b  c".toList "c\t<%= z %>".toList) "c d<% open".toList
        = mergeClass "a<%= x y %>b  c".toList
            (mergeClass "c\t<%= z %>".toList "c d<% open".toList) := by
  have hbase : endsInTag false "a<%= x y %>b  c".toList = false := by decide
  have hadditional : endsInTag false "c\t<%= z %>".toList = false := by decide
  refine ⟨hbase, ?_, hadditional, ?_⟩
  · exact (classTokens_mergeClass hbase _).1.trans (by decide)
  · exact (classTokens_mergeClass hbase _).2.2.2 hadditional _

end Haml.Attribute
