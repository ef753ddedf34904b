import Haml.Proofs.Fragment
import Haml.Proofs.Source
import Mathlib.Data.List.DropRight

/-!
# The order of the rules

A value starts with a character of its form, and where two forms share their first characters what follows
tells them apart. So a fragment is accepted by one rule at most, rules for code aside, and the rules can be
tried in any order in which those for code come last among the rules for their keys. Main statement: every
such order reads the same attributes.
-/

namespace Haml.Attribute

variable {members members' : Text → List Attribute} {fragment s : Text} {value value' : Value}

/-! ## Forms of values -/

/-- The forms of values, other than code, that start with a character. -/
def formsAt (c : Char) : List ValueForm :=
  if c = '{' then [.group]
  else if Code.isQuote c then [.string]
  else if c = ':' then [.symbol]
  else if Text.isDigit c || c = '-' then [.number]
  else if Text.isIdentStart c || c = '@' then [.boolean, .call, .access]
  else []

theorem formsAt_of_isQuote {c : Char} (h : Code.isQuote c = true) : formsAt c = [.string] := by
  rcases Code.eq_of_isQuote h with rfl | rfl <;> rfl

theorem formsAt_of_isDigit {c : Char} (h : Text.isDigit c = true) : formsAt c = [.number] := by
  have hne : ∀ d, Text.isDigit d = false → c ≠ d := by
    rintro d hd rfl
    exact absurd h (by simp [hd])
  have hquote : Code.isQuote c = false := by
    simp [Code.isQuote, hne '"' rfl, hne '\'' rfl]
  rw [formsAt, if_neg (hne '{' rfl), hquote, if_neg Bool.false_ne_true, if_neg (hne ':' rfl), h]
  rfl

theorem formsAt_of_isIdentStart {c : Char} (h : Text.isIdentStart c = true) :
    formsAt c = [.boolean, .call, .access] :=
  Text.of_ascii (P := fun c => Text.isIdentStart c = true → formsAt c = [.boolean, .call, .access])
    (by decide +kernel) (toNat_of_isIdentStart h) h

theorem eq_brace_of_groupContent? {content : Text} (h : groupContent? (Text.trimStart s) = some content) :
    ∃ cs, Text.trimStart s = '{' :: cs := by
  obtain ⟨_, h⟩ := Option.ite_none_left_eq_some.mp h
  obtain ⟨group, hgroup, _⟩ := Option.bind_eq_some_iff.mp h
  have hstart : Text.trimStart (Text.trimStart s) = Text.trimStart s := List.dropWhile_idempotent _ _
  exact ⟨_, hstart ▸ Code.of_braced? hgroup⟩

theorem start_of_isInteger (h : isInteger s = true) : ∃ c cs, s = c :: cs ∧ formsAt c = [.number] := by
  unfold isInteger at h
  split at h
  · exact ⟨_, _, rfl, rfl⟩
  · obtain ⟨hne, hdigits⟩ := Bool.and_eq_true_iff.mp h
    obtain ⟨c, cs, rfl⟩ := List.exists_cons_of_ne_nil (bne_iff_ne.mp hne)
    exact ⟨c, cs, rfl, formsAt_of_isDigit (List.all_eq_true.mp hdigits c List.mem_cons_self)⟩

theorem start_of_isCall (h : isCall s = true) :
    ∃ c cs, s = c :: cs ∧ formsAt c = [.boolean, .call, .access]
      ∧ (cs.dropWhile isAccessChar).head? = some '(' := by
  unfold isCall at h
  split at h
  · cases h
  · rename_i c cs
    simp only [Bool.and_eq_true, Bool.or_eq_true, decide_eq_true_eq, beq_iff_eq] at h
    obtain ⟨⟨hstart, hopen⟩, _⟩ := h
    refine ⟨c, cs, rfl, ?_, hopen⟩
    rcases hstart with hstart | rfl
    · exact formsAt_of_isIdentStart hstart
    · rfl

theorem start_of_isAccess (h : isAccess s = true) :
    ∃ c cs, s = c :: cs ∧ formsAt c = [.boolean, .call, .access] ∧ cs.dropWhile isAccessChar = [] := by
  unfold isAccess at h
  split at h
  · cases h
  · rename_i c cs
    simp only [Bool.and_eq_true, Bool.or_eq_true, decide_eq_true_eq] at h
    obtain ⟨hall, hstart⟩ := h
    refine ⟨c, cs, rfl, ?_, List.dropWhile_eq_nil_iff.mpr (List.all_eq_true.mp hall)⟩
    rcases hstart with (hupper | rfl) | ⟨hstart, _⟩
    · have halpha : c.isAlpha = true := Bool.or_eq_true_iff.mpr (.inl hupper)
      exact formsAt_of_isIdentStart (Bool.or_eq_true_iff.mpr (.inl halpha))
    · rfl
    · exact formsAt_of_isIdentStart hstart

/-- A value that is not read as code starts with a character of its form. -/
theorem mem_formsAt_of_read? {form : ValueForm} (hcode : form ≠ .code)
    (h : form.read? members s = some value) :
    ∃ c cs, Text.trimStart s = c :: cs ∧ form ∈ formsAt c := by
  cases form with
  | group =>
      obtain ⟨_, hcontent, _⟩ := Option.map_eq_some_iff.mp h
      obtain ⟨cs, hs⟩ := eq_brace_of_groupContent? hcontent
      exact ⟨_, cs, hs, List.mem_cons_self⟩
  | string =>
      obtain ⟨_, htext, _⟩ := Option.map_eq_some_iff.mp h
      obtain ⟨quote, _, hs, hquote, _⟩ := of_quotedText? htext
      exact ⟨quote, _, hs, formsAt_of_isQuote hquote ▸ List.mem_cons_self⟩
  | number =>
      obtain ⟨hinteger, _⟩ := Option.ite_none_right_eq_some.mp h
      obtain ⟨c, cs, hs, hforms⟩ := start_of_isInteger hinteger
      exact ⟨c, cs, hs, hforms ▸ List.mem_cons_self⟩
  | boolean =>
      simp only [ValueForm.read?] at h
      split at h
      · rename_i hs
        exact ⟨_, _, hs, List.mem_cons_self⟩
      · obtain ⟨hs, _⟩ := Option.ite_none_right_eq_some.mp h
        exact ⟨_, _, hs, List.mem_cons_self⟩
  | symbol =>
      obtain ⟨_, hname, _⟩ := Option.map_eq_some_iff.mp h
      unfold symbolName? at hname
      split at hname
      · rename_i hs
        exact ⟨_, _, hs, List.mem_cons_self⟩
      · cases hname
  | call =>
      obtain ⟨hcall, _⟩ := Option.ite_none_right_eq_some.mp h
      obtain ⟨c, cs, hs, hforms, _⟩ := start_of_isCall hcall
      exact ⟨c, cs, hs, by simp [hforms]⟩
  | access =>
      obtain ⟨haccess, _⟩ := Option.ite_none_right_eq_some.mp h
      obtain ⟨c, cs, hs, hforms, _⟩ := start_of_isAccess haccess
      exact ⟨c, cs, hs, by simp [hforms]⟩
  | code => exact absurd rfl hcode

/-- Two forms that start with the same character are equal, or both can start with a word. -/
theorem eq_or_mem_words {c : Char} {form other : ValueForm} (h : form ∈ formsAt c)
    (hother : other ∈ formsAt c) :
    form = other
      ∨ form ∈ [ValueForm.boolean, .call, .access] ∧ other ∈ [ValueForm.boolean, .call, .access] := by
  unfold formsAt at h hother
  split_ifs at h hother <;> simp_all

theorem not_access_of_isCall (h : isCall s = true) : ¬ isAccess s = true := by
  intro haccess
  obtain ⟨c, cs, rfl, _, hopen⟩ := start_of_isCall h
  obtain ⟨_, _, heq, _, hend⟩ := start_of_isAccess haccess
  cases heq
  rw [hend] at hopen
  cases hopen

/-- A truth value is a word alone, and so no path of accesses. -/
theorem not_path_of_boolean (h : ValueForm.read? members .boolean s = some value) :
    ¬ isCall (Text.trimStart s) = true ∧ ¬ isAccess (Text.trimStart s) = true := by
  simp only [ValueForm.read?] at h
  split at h
  · rename_i hs
    rw [hs]
    decide
  · obtain ⟨hs, _⟩ := Option.ite_none_right_eq_some.mp h
    rw [hs]
    decide

/-- No value can be read in two forms, code aside. -/
theorem valueForm_unique {form other : ValueForm} (hform : form ≠ .code) (hother : other ≠ .code)
    (h : form.read? members s = some value) (h' : other.read? members' s = some value') :
    form = other := by
  obtain ⟨c, cs, hs, hmem⟩ := mem_formsAt_of_read? hform h
  obtain ⟨_, _, hs', hmem'⟩ := mem_formsAt_of_read? hother h'
  cases hs.symm.trans hs'
  have hcall : ∀ {members value}, ValueForm.read? members .call s = some value →
      isCall (Text.trimStart s) = true := fun h => (Option.ite_none_right_eq_some.mp h).1
  have haccess : ∀ {members value}, ValueForm.read? members .access s = some value →
      isAccess (Text.trimStart s) = true := fun h => (Option.ite_none_right_eq_some.mp h).1
  rcases eq_or_mem_words hmem hmem' with rfl | ⟨hwords, hwords'⟩
  · rfl
  · simp only [List.mem_cons, List.not_mem_nil, or_false] at hwords hwords'
    rcases hwords with rfl | rfl | rfl
    · rcases hwords' with rfl | rfl | rfl
      · rfl
      · exact absurd (hcall h') (not_path_of_boolean h).1
      · exact absurd (haccess h') (not_path_of_boolean h).2
    · rcases hwords' with rfl | rfl | rfl
      · exact absurd (hcall h) (not_path_of_boolean h').1
      · rfl
      · exact absurd (haccess h') (not_access_of_isCall (hcall h))
    · rcases hwords' with rfl | rfl | rfl
      · exact absurd (haccess h) (not_path_of_boolean h').2
      · exact absurd (haccess h) (not_access_of_isCall (hcall h'))
      · rfl

/-! ## Rules -/

section

variable {rule other : Rule} {attr attr' : Attribute}

theorem key_unique (h : rule.read? members fragment = some attr)
    (h' : other.read? members' fragment = some attr') : rule.key = other.key := by
  obtain ⟨_, hsplit, _⟩ := Option.bind_eq_some_iff.mp h
  obtain ⟨_, hsplit', _⟩ := Option.bind_eq_some_iff.mp h'
  exact form_unique hsplit hsplit'

/-- A fragment is accepted by one rule at most, rules for code aside. -/
theorem rule_unique (hrule : rule.value ≠ .code) (hother : other.value ≠ .code)
    (h : rule.read? members fragment = some attr) (h' : other.read? members' fragment = some attr') :
    rule = other := by
  have hkey : rule.key = other.key := key_unique h h'
  obtain ⟨_, hsplit, hvalue⟩ := Option.bind_eq_some_iff.mp h
  obtain ⟨_, hsplit', hvalue'⟩ := Option.bind_eq_some_iff.mp h'
  cases (hkey ▸ hsplit).symm.trans hsplit'
  obtain ⟨_, hread, _⟩ := Option.map_eq_some_iff.mp hvalue
  obtain ⟨_, hread', _⟩ := Option.map_eq_some_iff.mp hvalue'
  have hform : rule.value = other.value := valueForm_unique hrule hother hread hread'
  cases rule
  cases other
  cases hkey
  cases hform
  rfl

end

/-! ## Orders of the rules -/

/-- In an order of rules those for code come last: no rule for the same keys stands behind one. -/
def KeepsCodeLast (order : List Rule) : Prop :=
  order.Pairwise fun rule later => later.key = rule.key → rule.value ≠ .code

instance (order : List Rule) : Decidable (KeepsCodeLast order) :=
  inferInstanceAs (Decidable (order.Pairwise _))

variable {order order' : List Rule} {attr : Attribute}

/--
If a rule of the order accepts a fragment besides the one that reads it, it is a rule for code, and the one that
reads it is not.
-/
theorem exists_rule_of_readFragment? (hcode : KeepsCodeLast order)
    (h : readFragment? order members fragment = some attr) :
    ∃ rule ∈ order, rule.read? members fragment = some attr
      ∧ ∀ other ∈ order, ∀ attr', other.read? members fragment = some attr' →
          other = rule ∨ other.value = .code ∧ rule.value ≠ .code := by
  obtain ⟨before, rule, after, rfl, hread, hnone⟩ := List.findSome?_eq_some_iff.mp h
  refine ⟨rule, by simp, hread, fun other hmem attr' hother => ?_⟩
  by_cases hvalue : rule.value = .code
  · -- What stands before a rule for code has not accepted the fragment, and what stands behind has another key.
    obtain ⟨_, hcons, _⟩ := List.pairwise_append.mp hcode
    rcases List.mem_append.mp hmem with hbefore | hmem
    · cases (hnone other hbefore).symm.trans hother
    · rcases List.mem_cons.mp hmem with rfl | hafter
      · exact .inl rfl
      · exact absurd hvalue ((List.pairwise_cons.mp hcons).1 other hafter (key_unique hother hread))
  · by_cases hvalue' : other.value = .code
    · exact .inr ⟨hvalue', hvalue⟩
    · exact .inl (rule_unique hvalue' hvalue hother hread)

theorem exists_readFragment? {rule : Rule} (hmem : rule ∈ order)
    (h : rule.read? members fragment = some attr) :
    ∃ attr', readFragment? order members fragment = some attr' :=
  Option.isSome_iff_exists.mp (List.findSome?_isSome_iff.mpr ⟨rule, hmem, by simp [h]⟩)

/-- A rule other than those for code gives its attribute wherever it stands. -/
theorem readFragment?_of_read? {rule : Rule} (hcode : KeepsCodeLast order) (hmem : rule ∈ order)
    (hvalue : rule.value ≠ .code) (h : rule.read? members fragment = some attr) :
    readFragment? order members fragment = some attr := by
  obtain ⟨attr', h'⟩ := exists_readFragment? hmem h
  obtain ⟨first, _, hread, hothers⟩ := exists_rule_of_readFragment? hcode h'
  rcases hothers rule hmem attr h with rfl | ⟨hcodeValue, _⟩
  · rw [h', ← hread, h]
  · exact absurd hcodeValue hvalue

/-- A fragment with a quoted value is read as that value. -/
theorem readFragment?_of_quotedText? (members : Text → List Attribute) {form : KeyForm}
    {fragment word rest text : Text} (hsplit : form.split? fragment = some (word, rest))
    (htext : quotedText? (Text.trimStart rest) = some text) :
    readFragment? rules members fragment = some ⟨normalizeKey word, .string text⟩ := by
  have hmem : (⟨form, .string⟩ : Rule) ∈ rules := by cases form <;> decide
  have hread : Rule.read? members ⟨form, .string⟩ fragment = some ⟨normalizeKey word, .string text⟩ := by
    simp [Rule.read?, hsplit, ValueForm.read?, htext]
  exact readFragment?_of_read? (by decide) hmem (by simp) hread

theorem readFragment?_of_literal (members : Text → List Attribute) {form : KeyForm}
    {fragment word rest s body : Text} (hsplit : form.split? fragment = some (word, rest))
    (hrest : Text.trimStart rest = '"' :: s) (hbody : quotedBody? '"' s = some body) :
    readFragment? rules members fragment
      = some ⟨normalizeKey word, .string (Interpolation.expand (unescape body))⟩ :=
  readFragment?_of_quotedText? members hsplit (by simp [hrest, quotedText?, hbody])

/-- Orders of the same rules read the same, as long as the rules for code come last in both. -/
theorem readFragment?_eq_of_mem_iff (hmem : ∀ rule, rule ∈ order ↔ rule ∈ order')
    (hcode : KeepsCodeLast order) (hcode' : KeepsCodeLast order') (members : Text → List Attribute)
    (fragment : Text) : readFragment? order members fragment = readFragment? order' members fragment := by
  cases h : readFragment? order members fragment with
  | none =>
      rw [readFragment?, List.findSome?_eq_none_iff] at h
      exact (List.findSome?_eq_none_iff.mpr fun rule hrule => h rule ((hmem rule).mpr hrule)).symm
  | some attr =>
      obtain ⟨rule, hrule, hread, hothers⟩ := exists_rule_of_readFragment? hcode h
      obtain ⟨attr', h'⟩ := exists_readFragment? ((hmem rule).mp hrule) hread
      obtain ⟨rule', hrule', hread', hothers'⟩ := exists_rule_of_readFragment? hcode' h'
      rcases hothers rule' ((hmem rule').mpr hrule') attr' hread' with rfl | ⟨hvalue', _⟩
      · exact hread.symm.trans (hread'.trans h'.symm)
      · rcases hothers' rule ((hmem rule).mp hrule) attr hread with rfl | ⟨_, hvalue⟩
        · exact hread.symm.trans (hread'.trans h'.symm)
        · exact absurd hvalue' hvalue

theorem members_eq_of_mem_iff (hmem : ∀ rule, rule ∈ order ↔ rule ∈ order')
    (hcode : KeepsCodeLast order) (hcode' : KeepsCodeLast order') :
    Attribute.members order = Attribute.members order' := by
  funext content
  simp only [Attribute.members, readFragment?_eq_of_mem_iff hmem hcode hcode']

/-! ## Groups -/

/-- Only the value of a group depends on how the text between its braces is read. -/
theorem ValueForm.read?_eq_or_group (members members' : Text → List Attribute) (form : ValueForm) (s : Text) :
    form.read? members s = form.read? members' s
      ∨ ∃ inner inner', form.read? members s = some (.group inner)
          ∧ form.read? members' s = some (.group inner') := by
  cases form with
  | group =>
      cases h : groupContent? (Text.trimStart s) with
      | none => exact .inl (by simp only [ValueForm.read?, h, Option.map_none])
      | some content =>
          exact .inr ⟨members content, members' content, by simp only [ValueForm.read?, h, Option.map_some],
            by simp only [ValueForm.read?, h, Option.map_some]⟩
  | _ => exact .inl rfl

theorem Rule.read?_eq_or_group (members members' : Text → List Attribute) (rule : Rule) (fragment : Text) :
    rule.read? members fragment = rule.read? members' fragment
      ∨ ∃ key inner inner', rule.read? members fragment = some ⟨key, .group inner⟩
          ∧ rule.read? members' fragment = some ⟨key, .group inner'⟩ := by
  simp only [Rule.read?]
  cases rule.key.split? fragment with
  | none => exact .inl rfl
  | some parts =>
      rcases ValueForm.read?_eq_or_group members members' rule.value parts.2 with heq | hgroup
      · exact .inl (by simp only [Option.bind_some, heq])
      · obtain ⟨inner, inner', h, h'⟩ := hgroup
        exact .inr ⟨normalizeKey parts.1, inner, inner', by simp [h], by simp [h']⟩

theorem readFragment?_eq_or_group (order : List Rule) (members members' : Text → List Attribute)
    (fragment : Text) :
    readFragment? order members fragment = readFragment? order members' fragment
      ∨ ∃ key inner inner', readFragment? order members fragment = some ⟨key, .group inner⟩
          ∧ readFragment? order members' fragment = some ⟨key, .group inner'⟩ := by
  induction order with
  | nil => exact .inl rfl
  | cons rule order ih =>
      simp only [readFragment?, List.findSome?_cons] at ih ⊢
      rcases Rule.read?_eq_or_group members members' rule fragment with heq | hgroup
      · rw [heq]
        cases rule.read? members' fragment with
        | none => exact ih
        | some attr => exact .inl rfl
      · obtain ⟨key, inner, inner', h, h'⟩ := hgroup
        exact .inr ⟨key, inner, inner', by rw [h], by rw [h']⟩

/--
The members of a group are what its text is read as in its turn, groups in it included, as far as the values
are strings.
-/
theorem members_eq_filter_ofTextBy (order : List Rule) (content : Text) :
    Attribute.members order content = (ofTextBy order content).filter (·.value.isString) := by
  rw [Attribute.members, ofTextBy]
  induction fragments content with
  | nil => rfl
  | cons fragment rest ih =>
      simp only [List.filterMap_cons, ofFragmentBy?]
      rcases readFragment?_eq_or_group order (fun _ => []) (Attribute.members order) fragment with heq | hgroup
      · rw [heq]
        cases readFragment? order (Attribute.members order) fragment with
        | none => exact ih
        | some attr => simp only [List.filter_cons, ih, ofFragmentBy?]
      · obtain ⟨key, inner, inner', h, h'⟩ := hgroup
        simp only [h, h', List.filter_cons]
        exact ih

/-! ## Main statement -/

/-- Whether a rule gives an attribute for a fragment. -/
def Rule.Accepts (rule : Rule) (fragment : Text) : Prop :=
  (rule.read? (Attribute.members rules) fragment).isSome

instance (rule : Rule) (fragment : Text) : Decidable (rule.Accepts fragment) :=
  inferInstanceAs (Decidable (_ = true))

/--
No fragment is accepted by two rules, those for code aside, nor by both of the rules for code. So any order of
the rules in which those for code stand behind the others for their keys reads every fragment and every text
the same, and with them the groups they hold.
-/
theorem rules_exclusive :
    (∀ fragment, ∀ rule ∈ rules, ∀ other ∈ rules, rule.value ≠ .code → other.value ≠ .code →
        rule.Accepts fragment → other.Accepts fragment → rule = other)
      ∧ (∀ fragment, ¬ (Rule.Accepts ⟨.quoted, .code⟩ fragment ∧ Rule.Accepts ⟨.bare, .code⟩ fragment))
      ∧ ∀ order : List Rule, order.Perm rules → KeepsCodeLast order →
          (∀ fragment, ofFragmentBy? order fragment = ofFragment? fragment)
            ∧ ∀ s, ofTextBy order s = ofText s := by
  refine ⟨fun fragment rule _ other _ hrule hother h h' => ?_, fun fragment ⟨h, h'⟩ => ?_,
    fun order hperm hcode => ?_⟩
  · obtain ⟨_, hread⟩ := Option.isSome_iff_exists.mp h
    obtain ⟨_, hread'⟩ := Option.isSome_iff_exists.mp h'
    exact rule_unique hrule hother hread hread'
  · obtain ⟨_, hread⟩ := Option.isSome_iff_exists.mp h
    obtain ⟨_, hread'⟩ := Option.isSome_iff_exists.mp h'
    cases key_unique hread hread'
  · have hmem : ∀ rule, rule ∈ order ↔ rule ∈ rules := fun _ => hperm.mem_iff
    have hlast : KeepsCodeLast rules := by decide
    have hfragment : ofFragmentBy? order = ofFragment? := by
      funext fragment
      rw [ofFragment?, ofFragmentBy?, ofFragmentBy?, members_eq_of_mem_iff hmem hcode hlast,
        readFragment?_eq_of_mem_iff hmem hcode hlast]
    refine ⟨congrFun hfragment, fun s => ?_⟩
    rw [ofText, ofTextBy, ofTextBy, hfragment]
    rfl

/-- The rules in reverse, with those for code behind all others. -/
theorem rules_exclusive_reversed :
    ¬ Rule.Accepts ⟨.bare, .access⟩ "open: true".toList
      ∧ ¬ Rule.Accepts ⟨.bare, .code⟩ "'a': b".toList
      ∧ ofTextBy ((rules.filter (·.value ≠ .code)).reverse ++ rules.filter (·.value = .code))
          "data: \x7b id: 'x', b: \x7b c: 'd' \x7d \x7d, :n => 12, 'k': a + b, to: root_path(1)".toList
        = [⟨"data".toList, .group [⟨"id".toList, .string "x".toList⟩]⟩, ⟨"n".toList, .number "12".toList⟩,
            ⟨"k".toList, .code "a + b".toList⟩, ⟨"to".toList, .code "root_path(1)".toList⟩] := by
  obtain ⟨hspecial, hcode, horder⟩ := rules_exclusive
  refine ⟨fun h => ?_, fun h => hcode "'a': b".toList ⟨by decide +kernel, h⟩, ?_⟩
  · have hboolean : Rule.Accepts ⟨.bare, .boolean⟩ "open: true".toList := by decide +kernel
    exact absurd (hspecial _ _ (by decide) _ (by decide) (by decide) (by decide) hboolean h) (by decide)
  · obtain ⟨_, htext⟩ := horder ((rules.filter (·.value ≠ .code)).reverse ++ rules.filter (·.value = .code))
      (by decide) (by decide)
    rw [htext]
    rfl

end Haml.Attribute
