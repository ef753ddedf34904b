import Haml.Conversion
import Haml.Proofs.SlicedElement

/-!
# Documents converted by slices

Besides the scanners, slices are taken of what follows a statement's sigil, of the indentation of a line, of the
content before the brace of an attribute block, and of the statements behind another. With these the conversion is
told as a whole as one that ends at the first slice that there is not. Main statement: on no document does it end so,
and it gives what the conversion gives.
-/

namespace Haml

/-- What content of a kind starts with, if slices are taken behind it. -/
def Kind.sigil : Kind → Text
  | .comment => ['-', '#']
  | .output => ['=']
  | .code => ['-']
  | .escapedOutput => ['&', '=']
  | .unescapedOutput => ['!', '=']
  | .htmlComment => ['/']
  | .filter => [':']
  | _ => []

theorem Kind.sigil_prefix (content : Text) : (Kind.of content).sigil <+: content := by
  fun_cases Kind.of content <;> simp [Kind.sigil]

namespace Sliced

/-! ## Renderings -/

def ofTag (content : Text) (hasChildren : Bool) : Sliced Rendering := do
  match ← parse? content with
  | some tag =>
    let element ← writeTag tag hasChildren
    return .line element.markup element.closer
  | none => return .verbatim

def ofOutput (code : Text) : Sliced Rendering := do
  match ← commentOffset? code with
  | some offset =>
    let expression := Text.trimEnd (← code.slice 0 offset)
    let remark := Text.trim (← code.sliceFrom (offset + 2))
    return .line (Erb.output expression ++ ' ' :: Erb.comment remark)
      (Rendering.endIf (Code.hasDoBlock expression))
  | none => return .line (Erb.output code) (Rendering.endIf (Code.hasDoBlock code))

def ofCode (content : Text) : Sliced Rendering := do
  let code := Text.trim (← content.sliceFrom 1)
  return .line (Erb.statement code) (Rendering.endIf (!Code.isContinuation content && Code.opensBlock code))

def ofContent (content : Text) (hasChildren : Bool) : Sliced Rendering := do
  match Kind.of content with
  | .blank => return .line [] none
  | .doctype => return Rendering.ofDoctype content
  | .comment => return .line (Erb.comment (Text.trim (← content.sliceFrom 2))) none
  | .element => ofTag content hasChildren
  | .classShorthand => ofTag content hasChildren
  | .idShorthand => ofTag content hasChildren
  | .output => ofOutput (Text.trim (← content.sliceFrom 1))
  | .code => ofCode content
  | .escapedOutput => return .line (Erb.output (Text.trim (← content.sliceFrom 2))) none
  | .unescapedOutput => return .line (Erb.unescapedOutput (Text.trim (← content.sliceFrom 2))) none
  | .htmlComment =>
    return .line ("<!-- ".toList ++ Text.trim (← content.sliceFrom 1) ++ " -->".toList) none
  | .filter => return Rendering.ofFilter (Text.trim (← content.sliceFrom 1))
  | .text => return Rendering.ofRunningText content

@[simp]
theorem ofTag_eq (content : Text) (hasChildren : Bool) :
    ofTag content hasChildren = .ok (Rendering.ofTag content hasChildren) := by
  rw [ofTag, Rendering.ofTag, parse?_eq, ok_bind]
  cases Tag.parse? content <;> simp

@[simp]
theorem ofOutput_eq (code : Text) : ofOutput code = .ok (Rendering.ofOutput code) := by
  rw [ofOutput, Rendering.ofOutput, commentOffset?_eq, ok_bind, Code.commentOffset?]
  cases hcomment : Code.comment? code with
  | none => rfl
  | some cut =>
      obtain ⟨before, remark⟩ := cut
      obtain ⟨hbefore, hremark⟩ := slices_of_comment (Code.append_of_comment? hcomment)
      simp [hbefore, hremark]

/-- Behind the sigil of its kind content is cut between two characters. -/
theorem sliceFrom_sigil {content : Text} {kind : Kind} (h : Kind.of content = kind) :
    content.sliceFrom kind.sigil.byteSize = .ok (content.drop kind.sigil.length) := by
  obtain ⟨rest, hrest⟩ := h ▸ Kind.sigil_prefix content
  rw [← hrest, List.drop_left]
  exact Text.sliceFrom_append kind.sigil rest

@[simp]
theorem ofContent_eq (content : Text) (hasChildren : Bool) :
    ofContent content hasChildren = .ok (Rendering.ofContent content hasChildren) := by
  rw [ofContent, Rendering.ofContent]
  cases hkind : Kind.of content with
  | blank | doctype | text => rfl
  | element | classShorthand | idShorthand => exact ofTag_eq content hasChildren
  | comment | escapedOutput | unescapedOutput =>
      have hrest : content.sliceFrom 2 = .ok (content.drop 2) := sliceFrom_sigil hkind
      simp [hrest]
  | output | code | htmlComment | filter =>
      have hrest : content.sliceFrom 1 = .ok (content.drop 1) := sliceFrom_sigil hkind
      simp [hrest, ofCode, Rendering.ofCode]

/-! ## Statements -/

/-- The characters of a class that a text starts with: what the rest of the text leaves of its bytes. -/
def leading (p : Char → Bool) (s : Text) : Sliced Text :=
  s.slice 0 (s.byteSize - Text.byteSize (s.dropWhile p))

def blockOpener? (content : Text) : Sliced (Option Text) := do
  if Statement.startsElement content && content.dropWhile Statement.isOpenerChar = ['{'] then
    match (offsets (·.head? = some '{') 0 content).getLast? with
    | some brace => return some (Text.trimEnd (← content.slice 0 brace))
    | none => return none
  else return none

def block? (line : Line) (following : List Line) : Sliced (Option Statement) := do
  match ← blockOpener? line.stripped with
  | none => return none
  | some element =>
    let blanks ← leading Text.isBlank line.text
    match Statement.blockAttributes? line.indent following with
    | none => return none
    | some (fragments, taken) =>
      let (contents, more) := Statement.blockContent line.indent (following.drop taken)
      return some (Statement.folded
        (blanks ++ element ++ "\x7b ".toList ++ Text.join ", ".toList fragments ++ " \x7d".toList
          ++ contents.flatMap (' ' :: ·))
        (1 + taken + more))

def first (line : Line) (following : List Line) : Sliced Statement := do
  match ← block? line following with
  | some statement => return statement
  | none =>
    if Statement.isContinued line.stripped then return Statement.continued line following
    else return Statement.single line

def ofLines : List Line → Sliced (List Statement)
  | [] => return []
  | line :: following => do
    let statement ← first line following
    return statement :: (← ofLines (following.drop (statement.span - 1)))
termination_by lines => lines.length
decreasing_by simp only [List.length_drop, List.length_cons]; omega

@[simp]
theorem leading_eq (p : Char → Bool) (s : Text) : leading p s = .ok (s.takeWhile p) := by
  have hsplit : s.takeWhile p ++ s.dropWhile p = s := List.takeWhile_append_dropWhile
  have hsize : s.byteSize = Text.byteSize (s.takeWhile p) + Text.byteSize (s.dropWhile p) := by
    rw [← Text.byteSize_append, hsplit]
  rw [leading, hsize, Nat.add_sub_cancel]
  exact (Text.slices_of_append hsplit).1

/-- The brace that ends a text is the only one in it if there is none before it. -/
theorem offsets_brace {s : Text} (h : ∀ c ∈ s, Statement.isOpenerChar c = true) (offset : Nat) :
    offsets (·.head? = some '{') offset (s ++ ['{']) = [offset + s.byteSize] := by
  induction s generalizing offset with
  | nil => rfl
  | cons c cs ih =>
      obtain ⟨hc, hcs⟩ := List.forall_mem_cons.mp h
      have hbrace : c ≠ '{' := by
        rintro rfl
        cases hc
      simp [offsets, hbrace, ih hcs, Text.byteSize, Nat.add_assoc]

@[simp]
theorem blockOpener?_eq (content : Text) : blockOpener? content = .ok (Statement.blockOpener? content) := by
  rw [blockOpener?, Statement.blockOpener?]
  split
  · rename_i hopener
    have hrest : content.dropWhile Statement.isOpenerChar = ['{'] :=
      of_decide_eq_true (Bool.and_eq_true_iff.mp hopener).2
    have hsplit : content.takeWhile Statement.isOpenerChar ++ ['{'] = content := by
      rw [← hrest]
      exact List.takeWhile_append_dropWhile
    have hoffsets := offsets_brace (s := content.takeWhile Statement.isOpenerChar)
      (fun _ hc => List.mem_takeWhile_imp hc) 0
    rw [hsplit, Nat.zero_add] at hoffsets
    rw [hoffsets, List.getLast?_singleton]
    simp only [(Text.slices_of_append hsplit).1, ok_bind]
    rfl
  · rfl

@[simp]
theorem block?_eq (line : Line) (following : List Line) :
    block? line following = .ok (Statement.block? line following) := by
  rw [block?, Statement.block?, blockOpener?_eq, ok_bind]
  cases Statement.blockOpener? line.stripped with
  | none => rfl
  | some element =>
      simp only [leading_eq, ok_bind]
      cases Statement.blockAttributes? line.indent following <;> rfl

@[simp]
theorem first_eq (line : Line) (following : List Line) :
    first line following = .ok (Statement.first line following) := by
  rw [first, Statement.first, block?_eq, ok_bind]
  cases Statement.block? line following with
  | some statement => rfl
  | none => cases Statement.isContinued line.stripped <;> rfl

@[simp]
theorem ofLines_eq (lines : List Line) : ofLines lines = .ok (Statement.ofLines lines) := by
  induction lines using Statement.ofLines.induct with
  | case1 => rw [ofLines, Statement.ofLines]; rfl
  | case2 line following ih =>
      rw [ofLines, Statement.ofLines, first_eq, ok_bind, ih]
      rfl

/-! ## Documents -/

/-- The statements from an index on. -/
def statementsFrom (statements : List Statement) (index : Nat) : Sliced (List Statement) :=
  if index ≤ statements.length then .ok (statements.drop index)
  else .error ⟨statements.length, index, statements.length⟩

/-- Writes a rendered statement. Lines and content as it is stand behind the statement's indentation. -/
def write (converter : Converter) (statement : Statement) (hasChildren : Bool) (rendering : Rendering) :
    Sliced (List Chunk × Converter) := do
  let (chunks, after) := converter.write statement hasChildren rendering
  match rendering with
  | .line body _ => return ([.line (← leading Text.isIndent statement.text) body], after)
  | .filter _ => return (chunks, after)
  | .verbatim => return ([.line (← leading Text.isIndent statement.text) statement.stripped], after)

def convertStatement (converter : Converter) (statement : Statement) (nextIndent : Nat) :
    Sliced (List Chunk × Converter) := do
  if statement.isBlank then return (Converter.copyBlank statement, converter)
  else
    let (closers, scopes) :=
      converter.scopes.closeFor statement.indent (Code.isContinuation statement.stripped)
    let hasChildren : Bool := statement.indent < nextIndent
    let rendering ← ofContent statement.stripped hasChildren
    let (chunks, converter) ← write { converter with scopes } statement hasChildren rendering
    return (closers ++ chunks, converter)

def step (converter : Converter) (statement : Statement) (nextIndent : Nat) :
    Sliced (List Chunk × Converter) := do
  match converter.filters.absorb? statement with
  | some copied => return (copied, converter)
  | none =>
    let (last, filters) := converter.filters.finish
    let (chunks, converter) ← convertStatement { converter with filters } statement nextIndent
    return (last ++ chunks, converter)

/-- Converts the statements that are left, the first of which stands at `index`. -/
def run (statements : List Statement) (converter : Converter) :
    (index : Nat) → List Statement → Sliced (List Chunk × Converter)
  | _, [] => return converter.finish
  | index, statement :: following => do
    let nextIndent := Statement.indentOfFirst (← statementsFrom statements (index + 1))
    let (chunks, converter) ← step converter statement nextIndent
    let (more, converter) ← run statements converter (index + 1) following
    return (chunks ++ more, converter)

def convert (document : Text) : Sliced Conversion := do
  let lines := Line.ofDocument document
  let statements ← ofLines lines
  let (chunks, converter) ← run statements .start 0 statements
  return { page := Chunk.concat chunks
           stats :=
             { lines := lines.length
               statements := statements.length
               framesOpened := converter.scopes.opened
               framesClosed := converter.scopes.closed
               filtersOpened := converter.filters.opened
               verbatim := converter.verbatim } }

theorem write_eq (converter : Converter) (statement : Statement) (hasChildren : Bool) (rendering : Rendering) :
    write converter statement hasChildren rendering = .ok (converter.write statement hasChildren rendering) := by
  rw [write]
  cases rendering with
  | line body closer => simp only [leading_eq, ok_bind]; rfl
  | filter kind => rfl
  | verbatim => simp only [leading_eq, ok_bind]; rfl

theorem convertStatement_eq (converter : Converter) (statement : Statement) (nextIndent : Nat) :
    convertStatement converter statement nextIndent = .ok (converter.convert statement nextIndent) := by
  rw [convertStatement, Converter.convert]
  split
  · rfl
  · simp only [ofContent_eq, write_eq, ok_bind]
    rfl

theorem step_eq (converter : Converter) (statement : Statement) (nextIndent : Nat) :
    step converter statement nextIndent = .ok (converter.step statement nextIndent) := by
  rw [step, Converter.step]
  cases converter.filters.absorb? statement with
  | some copied => rfl
  | none =>
      simp only [convertStatement_eq, ok_bind]
      rfl

theorem run_eq {statements following : List Statement} (before : List Statement)
    (h : statements = before ++ following) (converter : Converter) :
    run statements converter before.length following = .ok (converter.run following) := by
  induction following generalizing before converter with
  | nil => rfl
  | cons statement following ih =>
      have hfrom : statementsFrom statements (before.length + 1) = .ok following := by
        rw [statementsFrom, if_pos (by simp [h])]
        simp [h]
      have hnext := ih (before ++ [statement]) (by simp [h])
      rw [List.length_append, List.length_singleton] at hnext
      rw [run, hfrom, Converter.run]
      simp only [step_eq, hnext, ok_bind]
      rfl

theorem convert_eq (document : Text) : convert document = .ok (Haml.convert document) := by
  have hrun := run_eq [] (List.nil_append (Statement.ofDocument document)).symm .start
  rw [convert, ofLines_eq, ok_bind]
  exact congrArg (· >>= _) hrun

/-! ## Main statement -/

/--
Slices are taken between boundaries within a text. The offsets of closing delimiters and of comments are such
boundaries, and so are those behind the delimiter and behind the hash of the comment; and with slices in place of
texts every scanner reads the same, and every document is converted to the same page.
-/
theorem slices_valid :
    (∀ (s part : Text) (start stop : Nat), s.slice start stop = .ok part →
        start ≤ stop ∧ stop ≤ s.byteSize ∧ s.isBoundary start = true ∧ s.isBoundary stop = true)
      ∧ (∀ (opening closing : Char) (s : Text),
          closingOffset? opening closing s = Code.closingOffset? opening closing s
            ∧ ∀ offset ∈ Code.closingOffset? opening closing s,
              s.isBoundary offset = true ∧ s.isBoundary (offset + closing.utf8Size) = true)
      ∧ (∀ code : Text, commentOffset? code = .ok (Code.commentOffset? code)
          ∧ ∀ offset ∈ Code.commentOffset? code,
            code.isBoundary offset = true ∧ code.isBoundary (offset + 2) = true)
      ∧ (∀ (separator : Char) (s : Text), split separator s = .ok (Code.split separator s))
      ∧ (∀ s : Text, splitShorthand s = .ok (Tag.splitShorthand s) ∧ parse? s = .ok (Tag.parse? s))
      ∧ (∀ value : Text, classTokens value = .ok (Attribute.classTokens value))
      ∧ (∀ (p : Char → Bool) (s : Text), leading p s = .ok (s.takeWhile p))
      ∧ (∀ (line : Line) (following : List Line),
          block? line following = .ok (Statement.block? line following))
      ∧ ∀ document : Text, convert document = .ok (Haml.convert document) := by
  refine ⟨fun s part start stop h => ?_, fun opening closing s => ⟨closingOffset?_eq opening closing s, ?_⟩,
    fun code => ⟨commentOffset?_eq code, ?_⟩, split_eq, fun s => ⟨splitShorthand_eq s, parse?_eq s⟩,
    classTokens_eq, leading_eq, block?_eq, convert_eq⟩
  · obtain ⟨before, after, rfl, rfl, rfl⟩ := Text.slice_eq_ok_iff.mp h
    have hstop : Text.isBoundary (before ++ (part ++ after)) (before.byteSize + part.byteSize) = true :=
      Text.isBoundary_iff.mpr ⟨before ++ part, after, by simp, (Text.byteSize_append before part).symm⟩
    exact ⟨Nat.le_add_right _ _, Text.le_byteSize_of_isBoundary hstop, Text.isBoundary_append _ _, hstop⟩
  · exact fun offset => isBoundary_of_closingOffset?
  · exact fun offset => isBoundary_of_commentOffset?

/-- Wide delimiters, a comment behind a wide character, and a tag with one in its braces. -/
theorem slices_valid_wide :
    Text.isBoundary "f«ü»x".toList 7 = true ∧ Text.isBoundary "t(é) # ü".toList 7 = true
      ∧ (convert "%p.a\x7b title: 'ü' \x7d ö".toList).map Conversion.page
        = .ok "<p class=\"a\" title=\"ü\">ö</p>\n".toList := by
  obtain ⟨_, hclosing, hcomment, _, _, _, _, _, hconvert⟩ := slices_valid
  have hclose : Code.closingOffset? '«' '»' "f«ü»x".toList = some 5 := by decide +kernel
  have hhash : Code.commentOffset? "t(é) # ü".toList = some 5 := by decide +kernel
  refine ⟨((hclosing '«' '»' _).2 5 hclose).2, ((hcomment _).2 5 hhash).2, ?_⟩
  rw [hconvert]
  exact congrArg Except.ok (by decide +kernel)

end Sliced

end Haml
