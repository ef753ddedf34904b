import Haml.Element
import Haml.Proofs.RuleOrder
import Haml.Proofs.SlicedClass
import Haml.Proofs.SlicedTag

/-!
# Elements written by slices

Attribute texts are cut at commas and at closing braces, and class values at blanks. With slices in place of the
texts between these, the same attributes are read, merged and written.
-/

namespace Haml.Sliced

section

variable {α β σ : Type}

theorem filterMapM_eq {f : α → Sliced (Option β)} {g : α → Option β} {l : List α}
    (h : ∀ a ∈ l, f a = .ok (g a)) : l.filterMapM f = .ok (l.filterMap g) := by
  induction l with
  | nil => rfl
  | cons a l ih =>
      obtain ⟨ha, hl⟩ := List.forall_mem_cons.mp h
      rw [List.filterMapM_cons, ha, ok_bind, List.filterMap_cons]
      cases g a with
      | none => exact ih hl
      | some b => exact congrArg (· >>= fun bs => pure (b :: bs)) (ih hl)

theorem foldlM_eq {f : σ → α → Sliced σ} {g : σ → α → σ} (h : ∀ s a, f s a = .ok (g s a)) (s : σ)
    (l : List α) : l.foldlM f s = .ok (l.foldl g s) := by
  have hf : f = fun s a => pure (g s a) := funext fun s => funext (h s)
  rw [hf]
  exact List.foldlM_pure

end

/-! ## Attribute texts -/

def fragments (s : Text) : Sliced (List Text) := do
  return ((← split ',' s).map Text.trim).filter (· != [])

def groupContent? (s : Text) : Sliced (Option Text) := do
  if s.contains '\n' || s.getLast? != some '}' then return none
  else
    match ← braced? s with
    | some group => if Text.trim group.remaining = [] then return some group.content else return none
    | none => return none

/-- The value that a text has in one form; `attributes` reads the text between the braces of a group. -/
def value? (attributes : Text → Sliced (List Attribute)) (form : Attribute.ValueForm) (s : Text) :
    Sliced (Option Value) := do
  if form = .group then
    match ← groupContent? (Text.trimStart s) with
    | some content => return some (.group ((← attributes content).filter (·.value.isString)))
    | none => return none
  else return form.read? (fun _ => []) s

def attribute? (attributes : Text → Sliced (List Attribute)) (fragment : Text) (rule : Attribute.Rule) :
    Sliced (Option Attribute) := do
  match rule.key.split? fragment with
  | some (key, rest) =>
    let value ← value? attributes rule.value rest
    return value.map fun value => ⟨Attribute.normalizeKey key, value⟩
  | none => return none

/--
The attributes of a text, and of the groups in it in their turn. The text of a group is a smaller part of the
text that the group stands in, and could not be a slice of it else.
-/
def ofText (s : Text) : Sliced (List Attribute) := do
  (← fragments s).filterMapM fun fragment => Attribute.rules.findSomeM? <| attribute? (fun content =>
    if content.byteSize < s.byteSize then ofText content
    else .error ⟨s.byteSize, 0, content.byteSize⟩) fragment
termination_by s.byteSize

@[simp]
theorem fragments_eq (s : Text) : fragments s = .ok (Attribute.fragments s) := by
  simp [fragments, Attribute.fragments]

@[simp]
theorem groupContent?_eq (s : Text) : groupContent? s = .ok (Attribute.groupContent? s) := by
  rw [groupContent?, Attribute.groupContent?, braced?_eq]
  split
  · rfl
  · cases Code.braced? s with
    | none => rfl
    | some group => by_cases hempty : Text.trim group.remaining = [] <;> simp [hempty]

/-- The text of a group is smaller than the group, by its braces. -/
theorem byteSize_of_groupContent? {s content : Text}
    (h : Attribute.groupContent? (Text.trimStart s) = some content) : content.byteSize < s.byteSize := by
  obtain ⟨_, h⟩ := Option.ite_none_left_eq_some.mp h
  obtain ⟨group, hgroup, h⟩ := Option.bind_eq_some_iff.mp h
  obtain ⟨_, h⟩ := Option.ite_none_right_eq_some.mp h
  cases h
  have hinfix : '{' :: group.content <:+: s := by
    have hstart := Code.of_braced? hgroup
    refine List.IsInfix.trans ⟨[], '}' :: group.remaining, ?_⟩
      ((Text.trimStart_suffix _).trans (Text.trimStart_suffix s)).isInfix
    rw [hstart]
    rfl
  have hle := Text.byteSize_le_of_infix hinfix
  exact Nat.lt_of_lt_of_le (Nat.lt_add_of_pos_left (Char.utf8Size_pos '{')) hle

section

variable {attributes : Text → Sliced (List Attribute)} {read : Text → List Attribute}

theorem value?_eq {s : Text}
    (h : ∀ content : Text, content.byteSize < s.byteSize → attributes content = .ok (read content))
    (form : Attribute.ValueForm) :
    value? attributes form s = .ok (form.read? (fun content => (read content).filter (·.value.isString)) s) := by
  rw [value?]
  split
  · rename_i hgroup
    subst hgroup
    rw [groupContent?_eq, ok_bind, Attribute.ValueForm.read?]
    cases hcontent : Attribute.groupContent? (Text.trimStart s) with
    | none => rfl
    | some content => simp [h content (byteSize_of_groupContent? hcontent)]
  · rename_i hother
    cases form with
    | group => exact absurd rfl hother
    | _ => rfl

theorem attribute?_eq {fragment : Text}
    (h : ∀ content : Text, content.byteSize < fragment.byteSize → attributes content = .ok (read content))
    (rule : Attribute.Rule) :
    attribute? attributes fragment rule
      = .ok (rule.read? (fun content => (read content).filter (·.value.isString)) fragment) := by
  rw [attribute?, Attribute.Rule.read?]
  cases hsplit : rule.key.split? fragment with
  | none => rfl
  | some parts =>
      have hle := Text.byteSize_le_of_infix (Attribute.of_split? hsplit).2.isInfix
      simp [value?_eq fun content hcontent => h content (Nat.lt_of_lt_of_le hcontent hle)]

end

theorem ofText_eq (s : Text) : ofText s = .ok (Attribute.ofText s) := by
  have hmembers : Attribute.members Attribute.rules
      = fun content => (Attribute.ofText content).filter (·.value.isString) :=
    funext (Attribute.members_eq_filter_ofTextBy Attribute.rules)
  rw [ofText, fragments_eq, ok_bind]
  refine filterMapM_eq fun fragment hfragment => ?_
  have hle := Text.byteSize_le_of_infix (Attribute.infix_of_mem_fragments hfragment)
  have hattribute : attribute? (fun content =>
        if content.byteSize < s.byteSize then ofText content
        else .error ⟨s.byteSize, 0, content.byteSize⟩) fragment
      = fun rule => pure (rule.read? (Attribute.members Attribute.rules) fragment) := by
    funext rule
    rw [hmembers]
    refine attribute?_eq (fun content hcontent => ?_) rule
    have hlt := Nat.lt_of_lt_of_le hcontent hle
    rw [if_pos hlt]
    exact ofText_eq content
  rw [hattribute]
  exact List.findSomeM?_pure
termination_by s.byteSize

/-! ## Attribute sets -/

def combine (key : Text) (old new : EntryValue) : Sliced EntryValue := do
  match old, new with
  | .text base, .text additional =>
    if key = "class".toList then return .text (← mergeClass base additional)
    else return AttributeSet.combine key old new
  | _, _ => return AttributeSet.combine key old new

def insertEntry (entry : Entry) : List Entry → Sliced (List Entry)
  | [] => return [entry]
  | e :: es => do
    if e.key = entry.key then return ⟨e.key, ← combine e.key e.value entry.value⟩ :: es
    else return e :: (← insertEntry entry es)

def insert (set : AttributeSet) (entry : Entry) : Sliced AttributeSet := do
  return ⟨← insertEntry entry set.entries⟩

def merge (set : AttributeSet) (entries : List Entry) : Sliced AttributeSet := do
  let valued ← (entries.filter (·.value ≠ .flag)).foldlM insert set
  return (entries.filter (·.value = .flag)).foldl AttributeSet.insertFlag valued

def attributeSet (tag : Tag) : Sliced AttributeSet := do
  let set ← merge .empty tag.shorthandEntries
  match tag.attributes with
  | some text => merge set (Attribute.entriesOf (← ofText text))
  | none => return set

@[simp]
theorem combine_eq (key : Text) (old new : EntryValue) :
    combine key old new = .ok (AttributeSet.combine key old new) := by
  cases old with
  | flag => rfl
  | text base =>
      cases new with
      | flag => rfl
      | text additional =>
          rw [combine]
          split
          · rename_i hclass
            rw [mergeClass_eq, AttributeSet.combine, if_pos hclass]
            rfl
          · rfl

@[simp]
theorem insertEntry_eq (entry : Entry) (entries : List Entry) :
    insertEntry entry entries = .ok (AttributeSet.insertEntry entry entries) := by
  induction entries with
  | nil => rfl
  | cons e es ih => by_cases hkey : e.key = entry.key <;> simp [insertEntry, AttributeSet.insertEntry, hkey, ih]

theorem insert_eq (set : AttributeSet) (entry : Entry) : insert set entry = .ok (set.insert entry) := by
  simp [insert, AttributeSet.insert]

@[simp]
theorem merge_eq (set : AttributeSet) (entries : List Entry) : merge set entries = .ok (set.merge entries) := by
  simp [merge, foldlM_eq insert_eq, AttributeSet.merge]

@[simp]
theorem attributeSet_eq (tag : Tag) : attributeSet tag = .ok tag.attributeSet := by
  rw [attributeSet, Tag.attributeSet, Tag.literalEntries, merge_eq, ok_bind]
  cases tag.attributes with
  | none => rfl
  | some text => simp [ofText_eq]

/-! ## Tag lines -/

def writeTag (tag : Tag) (hasChildren : Bool) : Sliced Element := do
  let set ← attributeSet tag
  let start := '<' :: (tag.name ++ set.render ++ ['>'])
  let finish := Html.endTag tag.name
  if Html.isVoid tag.name then return ⟨start, none⟩
  else match tag.content with
    | .output escaping code =>
      let value := match escaping with
        | .escaped => Erb.output code
        | .unescaped => Erb.unescapedOutput code
      if hasChildren && Code.hasDoBlock code then
        return ⟨start ++ value, some (Erb.endMarker ++ finish)⟩
      else return ⟨start ++ value ++ finish, none⟩
    | .text text =>
      if hasChildren then return ⟨start, some finish⟩
      else return ⟨start ++ Interpolation.expand text ++ finish, none⟩

@[simp]
theorem writeTag_eq (tag : Tag) (hasChildren : Bool) :
    writeTag tag hasChildren = .ok (tag.write hasChildren) := by
  rw [writeTag, attributeSet_eq, ok_bind, Tag.write, Tag.startTag]
  split
  · rfl
  · cases tag.content with
    | text text => cases hasChildren <;> rfl
    | output escaping code =>
        dsimp only
        split <;> rfl

end Haml.Sliced
