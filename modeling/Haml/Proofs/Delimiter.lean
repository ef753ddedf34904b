import Haml.Proofs.Opaque
import Haml.Proofs.Sealed

/-!
# Where tags end

A reader of the page ends a tag at the first closing delimiter behind its opening one, whatever the code in
between means. Main statement: a tag that is written around code or a remark ends where it was meant to
end, exactly if what it is written around holds no closing delimiter.
-/

namespace Haml

/-! ## Reading tags -/

namespace Erb

/-- What stands before the first closing delimiter, and what follows that delimiter. -/
def splitAtEnd? : Text → Option (Text × Text)
  | [] => none
  | '%' :: '>' :: rest => some ([], rest)
  | c :: cs => (splitAtEnd? cs).map (Prod.map (c :: ·) id)

/-- The tag that a text starts with, its delimiters included, and what follows it. -/
def readTag? : Text → Option (Text × Text)
  | '<' :: '%' :: cs =>
    (splitAtEnd? cs).map (Prod.map (fun inner => '<' :: '%' :: (inner ++ ['%', '>'])) id)
  | _ => none

variable {s inner rest : Text}

theorem of_splitAtEnd? (h : splitAtEnd? s = some (inner, rest)) :
    s = inner ++ '%' :: '>' :: rest ∧ ¬ ['%', '>'] <:+: inner := by
  fun_induction splitAtEnd? s generalizing inner with
  | case1 => cases h
  | case2 =>
      cases h
      exact ⟨rfl, by simp⟩
  | case3 c cs hopen ih =>
      obtain ⟨⟨inner, _⟩, hinner, heq⟩ := Option.map_eq_some_iff.mp h
      cases heq
      obtain ⟨rfl, hnone⟩ := ih hinner
      refine ⟨rfl, fun hpart => ?_⟩
      rcases List.infix_cons_iff.mp hpart with hstarts | hpart
      · obtain ⟨rfl, hhead⟩ := head?_of_prefix_cons hstarts
        obtain ⟨ds, rfl⟩ := List.head?_eq_some_iff.mp hhead
        exact hopen _ rfl rfl
      · exact hnone hpart

theorem splitAtEnd?_of_not_infix (h : ¬ ['%', '>'] <:+: s) (rest : Text) :
    splitAtEnd? (s ++ " %>".toList ++ rest) = some (s ++ [' '], rest) := by
  induction s with
  | nil => rfl
  | cons c cs ih =>
      have hrest := ih fun hpart => h (hpart.trans (List.suffix_cons c cs).isInfix)
      rw [List.cons_append, List.cons_append, splitAtEnd?, hrest]
      · rfl
      · rintro tail rfl htail
        cases cs with
        | nil => cases htail
        | cons d ds =>
            obtain ⟨rfl, _⟩ := List.cons.inj htail
            exact h ⟨[], ds, rfl⟩

theorem readTag?_append_iff {opening s : Text} (h : '%' ∉ opening) (rest : Text) :
    readTag? ('<' :: '%' :: (opening ++ s ++ " %>".toList ++ rest))
        = some ('<' :: '%' :: (opening ++ s ++ " %>".toList), rest)
      ↔ ¬ ['%', '>'] <:+: s := by
  constructor
  · intro hread hpart
    obtain ⟨⟨inner, _⟩, hinner, heq⟩ := Option.map_eq_some_iff.mp hread
    obtain ⟨_, hnone⟩ := of_splitAtEnd? hinner
    have hsame : inner ++ ['%', '>'] = opening ++ s ++ [' '] ++ ['%', '>'] := by
      simpa using congrArg Prod.fst heq
    rw [List.append_cancel_right hsame] at hnone
    exact hnone (hpart.trans ⟨opening, [' '], rfl⟩)
  · intro hnone
    have hinner : ¬ ['%', '>'] <:+: opening ++ s := by
      intro hpart
      induction opening with
      | nil => exact hnone hpart
      | cons c cs ih =>
          obtain ⟨hc, hcs⟩ : '%' ≠ c ∧ '%' ∉ cs := by simpa using h
          rcases List.infix_cons_iff.mp hpart with hstarts | hpart
          · exact hc (head?_of_prefix_cons hstarts).1
          · exact ih hcs hpart
    rw [readTag?, splitAtEnd?_of_not_infix hinner]
    simp

end Erb

/-! ## Delimiters in rewritten code -/

theorem Rendering.infix_unescapeHyphens_iff (s : Text) :
    ['%', '>'] <:+: unescapeHyphens s ↔ ['%', '>'] <:+: s := by
  constructor
  · intro h
    fun_induction unescapeHyphens s with
    | case1 cs ih =>
        have hrest := (List.infix_cons_iff.mp h).resolve_left (by simp [List.cons_prefix_cons])
        exact (ih hrest).trans (List.suffix_append ['\\', '-'] cs).isInfix
    | case2 c cs _ ih =>
        rcases List.infix_cons_iff.mp h with hstarts | hpart
        · obtain ⟨rfl, hhead⟩ := head?_of_prefix_cons hstarts
          have hcs : cs.head? = some '>' := by
            unfold unescapeHyphens at hhead
            split at hhead
            · cases hhead
            · exact hhead
            · cases hhead
          obtain ⟨ds, rfl⟩ := List.head?_eq_some_iff.mp hcs
          exact ⟨[], ds, rfl⟩
        · exact (ih hpart).trans (List.suffix_cons c cs).isInfix
    | case3 => exact h
  · rintro ⟨before, after, rfl⟩
    have hcut : unescapeHyphens (before ++ '%' :: '>' :: after)
        = unescapeHyphens before ++ '%' :: '>' :: unescapeHyphens after := by
      rw [unescapeHyphens_append (by decide), unescapeHyphens_cons (.inl (by decide)),
        unescapeHyphens_cons (.inl (by decide))]
    rw [List.append_assoc, List.cons_append, List.singleton_append, hcut]
    exact ⟨_, _, List.append_assoc _ _ _⟩

theorem Entry.infix_escapeQuotes_iff (s : Text) :
    ['%', '>'] <:+: escapeQuotes s ↔ ['%', '>'] <:+: s := by
  constructor
  · exact fun h => by_contra fun hnone => not_infix_escapeQuotes hnone h
  · rintro ⟨before, after, rfl⟩
    rw [escapeQuotes_append, escapeQuotes_append]
    exact ⟨_, _, rfl⟩

theorem Attribute.infix_unescape_iff (s : Text) : ['%', '>'] <:+: unescape s ↔ ['%', '>'] <:+: s := by
  refine ⟨infix_of_infix_unescape rfl rfl, fun h => ?_⟩
  have hhead : ∀ {c : Char} {cs : Text}, ['%', '>'] <+: c :: cs → ['%', '>'] <+: c :: unescape cs := by
    intro c cs hstarts
    obtain ⟨rfl, hhead⟩ := head?_of_prefix_cons hstarts
    obtain ⟨ds, rfl⟩ := List.head?_eq_some_iff.mp hhead
    rw [unescape_cons (by simp)]
    exact List.prefix_append ['%', '>'] _
  fun_induction unescape s with
  | case1 c cs hc ih =>
      have hrest : ['%', '>'] <:+: c :: cs :=
        (List.infix_cons_iff.mp h).resolve_left (by simp [List.cons_prefix_cons])
      rcases List.infix_cons_iff.mp hrest with hstarts | hpart
      · obtain ⟨rfl, _⟩ := head?_of_prefix_cons hstarts
        cases hc
      · exact (ih hpart).trans (List.suffix_cons c _).isInfix
  | case2 c cs hc ih =>
      have hrest : ['%', '>'] <:+: c :: cs :=
        (List.infix_cons_iff.mp h).resolve_left (by simp [List.cons_prefix_cons])
      refine List.infix_cons_iff.mpr (.inr (List.infix_cons_iff.mpr ?_))
      exact (List.infix_cons_iff.mp hrest).imp hhead ih
  | case3 c cs _ ih => exact List.infix_cons_iff.mpr ((List.infix_cons_iff.mp h).imp hhead ih)
  | case4 => exact h

/-- No rewriting on the way into the page makes or breaks a closing delimiter. -/
theorem Passage.infix_rewrite_iff (passage : Passage) (code : Text) :
    ['%', '>'] <:+: passage.rewrite code ↔ ['%', '>'] <:+: code := by
  cases passage with
  | kept => exact Iff.rfl
  | hyphens => exact Rendering.infix_unescapeHyphens_iff code
  | literal => exact (Entry.infix_escapeQuotes_iff _).trans (Attribute.infix_unescape_iff code)

/-! ## The tags of a line -/

/-- The opening delimiters that code and remarks are written behind. -/
def Erb.openings : List Text :=
  ["<% ".toList, "<%= ".toList, "<%== ".toList, "<%# ".toList]

/-- What a statement writes a tag around: the code that it embeds, and what it remarks. -/
inductive Statement.Wraps (statement : Statement) (hasChildren : Bool) : Embedded → Prop where
  | code {embedded : Embedded} : statement.Embeds hasChildren embedded → Wraps statement hasChildren embedded
  /-- A comment for the readers of the template, `-#`. -/
  | comment : statement.kind = .comment →
      Wraps statement hasChildren ⟨"<%# ".toList, .kept, Text.trim (statement.stripped.drop 2), none⟩
  /-- The comment behind the code of an output. -/
  | remark {before remark : Text} : statement.kind = .output →
      Code.comment? (Text.trim (statement.stripped.drop 1)) = some (before, remark) →
      Wraps statement hasChildren ⟨"<%# ".toList, .kept, Text.trim remark, none⟩

namespace Embedded

/-- The tag as it is written, with what its content has become. -/
def tag (embedded : Embedded) : Text := embedded.tagOf (embedded.passage.rewrite embedded.source)

/--
Whether a line holds the tag, and a reader who comes to it, wherever it stands, ends it with its own closing
delimiter.
-/
def EndsItselfIn (embedded : Embedded) (body : Text) : Prop :=
  embedded.tag <:+: body ∧ ∀ before after, body = before ++ (embedded.tag ++ after) →
    Erb.readTag? (embedded.tag ++ after) = some (embedded.tag, after)

end Embedded

/-- Whether every tag of a statement's line ends where it was meant to. -/
def Statement.EndsTags (statement : Statement) (hasChildren : Bool) : Prop :=
  ∀ embedded body closer, statement.Wraps hasChildren embedded →
    statement.render hasChildren = .line body closer → embedded.EndsItselfIn body

namespace Statement

variable {statement : Statement} {hasChildren : Bool} {embedded : Embedded}

theorem Wraps.opening_mem (h : statement.Wraps hasChildren embedded) :
    embedded.opening ∈ Erb.openings := by
  cases h with
  | code hembeds =>
      cases hembeds with
      | @tagOutput _ escaping => cases escaping <;> simp [Erb.openings, Escaping.opening]
      | _ => simp [Erb.openings]
  | comment => simp [Erb.openings]
  | remark => simp [Erb.openings]

theorem Wraps.isPlaced (h : statement.Wraps hasChildren embedded) :
    ∃ body closer, statement.render hasChildren = .line body closer
      ∧ embedded.IsPlaced statement body := by
  have hremark : ∀ {source body : Text}, source <:+: statement.text →
      Erb.comment source <:+: body →
      (⟨"<%# ".toList, .kept, source, none⟩ : Embedded).IsPlaced statement body :=
    fun hsource hbody => ⟨hsource, fun _ => hbody, fun _ h => absurd h (Option.not_mem_none _)⟩
  cases h with
  | code hembeds => exact hembeds.isPlaced
  | comment hkind =>
      rw [kind] at hkind
      have hline : statement.render hasChildren
          = .line (Erb.comment (Text.trim (statement.stripped.drop 2))) none := by
        simp only [render, Rendering.ofContent, hkind]
      exact ⟨_, _, hline, hremark (statement.trim_drop_infix_text 2) List.infix_rfl⟩
  | @remark before remark hkind hcomment =>
      rw [kind] at hkind
      have hline : statement.render hasChildren = .line
          (Erb.output (Text.trimEnd before) ++ ' ' :: Erb.comment (Text.trim remark))
          (Rendering.endIf (Code.hasDoBlock (Text.trimEnd before))) := by
        simp only [render, Rendering.ofContent, hkind, Rendering.ofOutput, hcomment]
      have hsource : Text.trim remark <:+: statement.text :=
        (Text.trim_infix_self remark).trans
          ((Code.suffix_of_comment? hcomment).isInfix.trans (statement.trim_drop_infix_text 1))
      have hbody : Erb.comment (Text.trim remark)
          <:+: Erb.output (Text.trimEnd before) ++ ' ' :: Erb.comment (Text.trim remark) :=
        ((List.suffix_cons ' ' _).trans (List.suffix_append _ _)).isInfix
      exact ⟨_, _, hline, hremark hsource hbody⟩

/-- A tag is written in one piece, unless its content ends it early. -/
theorem Wraps.tag_infix (h : statement.Wraps hasChildren embedded)
    (hnone : ¬ ['%', '>'] <:+: embedded.source) {body : Text}
    (hplaced : embedded.IsPlaced statement body) : embedded.tag <:+: body := by
  cases hclasses : embedded.classes with
  | none => exact hplaced.line hclasses
  | some classes =>
      cases h with
      | code hembeds =>
          obtain ⟨hopening, hmerged⟩ := hembeds.of_classes hclasses
          have htag : embedded.tag = Erb.output (embedded.passage.rewrite embedded.source) := by
            rw [Embedded.tag, Embedded.tagOf, hopening]
            rfl
          have hgap := Attribute.hasGap_output_of_not_infix
            fun hpart => hnone ((embedded.passage.infix_rewrite_iff _).mp hpart)
          have hbody : classes <:+: body :=
            .trans ⟨"class=\"".toList, ['"'], by simp⟩ (hplaced.merged classes hclasses)
          rw [htag]
          exact (hmerged hgap).trans hbody
      | comment => cases hclasses
      | remark => cases hclasses

theorem Wraps.endsItselfIn_iff (h : statement.Wraps hasChildren embedded) {body : Text}
    (hplaced : embedded.IsPlaced statement body) :
    embedded.EndsItselfIn body ↔ ¬ ['%', '>'] <:+: embedded.source := by
  have hread : ∀ after, Erb.readTag? (embedded.tag ++ after) = some (embedded.tag, after)
      ↔ ¬ ['%', '>'] <:+: embedded.source := by
    intro after
    obtain ⟨opening, hopening, hpercent⟩ :
        ∃ opening, embedded.opening = '<' :: '%' :: opening ∧ '%' ∉ opening := by
      have hmem := h.opening_mem
      simp only [Erb.openings, List.mem_cons, List.not_mem_nil, or_false] at hmem
      rcases hmem with heq | heq | heq | heq <;> exact ⟨_, heq, by decide⟩
    rw [Embedded.tag, Embedded.tagOf, hopening, ← embedded.passage.infix_rewrite_iff]
    exact Erb.readTag?_append_iff hpercent after
  constructor
  · rintro ⟨⟨before, after, hbody⟩, hends⟩
    exact (hread after).mp (hends before after (by rw [← hbody, List.append_assoc]))
  · exact fun hnone => ⟨h.tag_infix hnone hplaced, fun _ after _ => (hread after).mpr hnone⟩

/--
Whatever a statement writes a tag around is a part of its text, and its tag ends where it was meant to end
exactly if that part holds no closing delimiter. All tags of a line therefore end where they were meant to,
and nothing of a remark or of an expression is left outside of its tag, exactly if none of them holds the
delimiter.
-/
theorem endsTags_iff (statement : Statement) (hasChildren : Bool) :
    (∀ embedded, statement.Wraps hasChildren embedded →
        ∃ body closer, statement.render hasChildren = .line body closer
          ∧ embedded.source <:+: statement.text
          ∧ (embedded.EndsItselfIn body ↔ ¬ ['%', '>'] <:+: embedded.source))
      ∧ (statement.EndsTags hasChildren
        ↔ ∀ embedded, statement.Wraps hasChildren embedded → ¬ ['%', '>'] <:+: embedded.source) := by
  refine ⟨fun embedded h => ?_, fun hall embedded h => ?_, fun hnone embedded body closer h hline => ?_⟩
  · obtain ⟨body, closer, hline, hplaced⟩ := h.isPlaced
    exact ⟨body, closer, hline, hplaced.source, h.endsItselfIn_iff hplaced⟩
  · obtain ⟨body, closer, hline, hplaced⟩ := h.isPlaced
    exact (h.endsItselfIn_iff hplaced).mp (hall embedded body closer h hline)
  · obtain ⟨_, _, hline', hplaced⟩ := h.isPlaced
    rw [hline] at hline'
    cases hline'
    exact (h.endsItselfIn_iff hplaced).mpr (hnone embedded h)

/-- A comment for the readers of the template reaches the readers of the page. -/
theorem not_endsTags_of_delimiter :
    ¬ (Statement.single ⟨"-# 50 %> off".toList, false⟩).EndsTags false
      ∧ (convert "-# 50 %> off".toList).page = "<%# 50 %> off %>\n".toList
      ∧ Erb.readTag? (convert "-# 50 %> off".toList).page
        = some ("<%# 50 %>".toList, " off %>\n".toList) := by
  refine ⟨fun hall => ?_, by decide +kernel, by decide +kernel⟩
  have hwraps : (Statement.single ⟨"-# 50 %> off".toList, false⟩).Wraps false
      ⟨"<%# ".toList, .kept, "50 %> off".toList, none⟩ := .comment rfl
  obtain ⟨body, closer, hline, hplaced⟩ := hwraps.isPlaced
  exact absurd ((hwraps.endsItselfIn_iff hplaced).mp (hall _ body closer hwraps hline)) (by decide)

end Statement

end Haml
