import Haml.Conversion
import Haml.Proofs.FileTree
import Mathlib.Data.List.Pairwise

/-!
# Templates in a file tree

The templates that a path stands for are files of the tree, each at a place of its own. No page goes to the
place of a template or of another page; so converting one template leaves the others as they are.
-/

namespace Haml.Command.FileTree

variable {tree other : FileTree} {source : Text} {sources : List Text} {place : List Text}

/-! ## Places -/

/--
A path leads to a file with the name of a template. Its page has the same stem in the same directory, or
else the path of the page leads to a directory.
-/
structure TemplateAt (tree : FileTree) (source : Text) (directory : List Text) (stem : Text) : Prop where
  template : tree.newPlace? source = some (directory ++ [stem ++ ".haml".toList])
  file : ∃ content, tree.get? (directory ++ [stem ++ ".haml".toList]) = some (.file content)
  page : tree.newPlace? (Path.outputPath source) = some (directory ++ [stem ++ ".erb".toList])
    ∨ tree.newPlace? (Path.outputPath source) = none
      ∧ tree.find? (Path.outputPath source) = some .directory

def HasTemplate (tree : FileTree) (source : Text) : Prop :=
  ∃ directory stem, tree.TemplateAt source directory stem

/-- The place of the template at a path, and the place of its page. -/
def Touches (tree : FileTree) (source : Text) (place : List Text) : Prop :=
  tree.newPlace? source = some place ∨ tree.newPlace? (Path.outputPath source) = some place

theorem Alike.touches_iff (h : tree.Alike other) :
    other.Touches source place ↔ tree.Touches source place := by
  rw [Touches, h.newPlace?, h.newPlace?, Touches]

theorem startOf_congr {path path' name name' : Text} {above : List Text}
    (h : Path.pieces path = above ++ [name]) (h' : Path.pieces path' = above ++ [name']) :
    tree.startOf path' = tree.startOf path := by
  unfold startOf
  simp only [Path.head?_eq_slash_iff h, Path.head?_eq_slash_iff h']

theorem WellFormed.hasTemplate (hwf : tree.WellFormed) {content : ByteArray}
    (hfile : tree.find? source = some (.file content)) (ht : Path.isTemplate source = true) :
    tree.HasTemplate source := by
  obtain ⟨place, hplace, hnode⟩ := hwf.exists_newPlace? hfile
  obtain ⟨above, name, directory, hpieces, hname, hwalk, hdirectory, rfl⟩ := newPlace?_eq_some_iff.mp hplace
  obtain ⟨stem, rfl, hpage⟩ := Path.outputPath_of_isTemplate hpieces hname ht
  refine ⟨directory, stem, hplace, ⟨content, hnode⟩, ?_⟩
  rcases hpage with ⟨hpage, houtput⟩ | houtput
  · rw [← startOf_congr hpieces houtput] at hwalk
    exact .inl (newPlace?_eq_some_iff.mpr ⟨above, _, directory, houtput, hpage, hwalk, hdirectory, rfl⟩)
  · rw [← startOf_congr hpieces houtput] at hwalk
    exact .inr ⟨newPlace?_dots houtput, hwf.find?_dots houtput hwalk hdirectory⟩

/-- No template has the name of a page. -/
theorem template_ne_page (directory directory' : List Text) (stem stem' : Text) :
    directory ++ [stem ++ ".haml".toList] ≠ directory' ++ [stem' ++ ".erb".toList] := by
  intro heq
  obtain ⟨_, hname⟩ := List.append_inj' heq rfl
  have hlast := congrArg List.getLast? (List.cons.inj hname).1
  simp at hlast

theorem TemplateAt.of_touches {directory : List Text} {stem : Text}
    (h : tree.TemplateAt source directory stem) (ht : tree.Touches source place) :
    place = directory ++ [stem ++ ".haml".toList] ∨ place = directory ++ [stem ++ ".erb".toList] := by
  rcases ht with ht | ht
  · exact .inl (Option.some.inj (ht.symm.trans h.template))
  · rcases h.page with hpage | ⟨hnone, _⟩
    · exact .inr (Option.some.inj (ht.symm.trans hpage))
    · rw [hnone] at ht
      cases ht

/-- The place of a template, and the place that is not the same to which its page goes, if it goes to any. -/
theorem HasTemplate.exists_places (h : tree.HasTemplate source) :
    ∃ place pagePlace content, tree.newPlace? source = some place
      ∧ tree.get? place = some (.file content) ∧ place ≠ pagePlace
      ∧ (tree.newPlace? (Path.outputPath source) = some pagePlace
        ∨ tree.find? (Path.outputPath source) = some .directory) := by
  obtain ⟨directory, stem, htemplate, ⟨content, hfile⟩, hpage⟩ := h
  exact ⟨_, directory ++ [stem ++ ".erb".toList], content, htemplate, hfile,
    template_ne_page directory directory stem stem, hpage.imp_right And.right⟩

namespace HasTemplate

/-- A template stays where it is if the directories and its own place stay as they are. -/
theorem of_alike (h : tree.HasTemplate source) (halike : tree.Alike other)
    (hkeeps : ∀ place, tree.newPlace? source = some place → other.get? place = tree.get? place) :
    other.HasTemplate source := by
  obtain ⟨directory, stem, htemplate, hfile, hpage⟩ := h
  refine ⟨directory, stem, (halike.newPlace? source).trans htemplate, ?_, ?_⟩
  · rwa [hkeeps _ htemplate]
  · rw [halike.newPlace?]
    exact hpage.imp_right fun ⟨hnone, hdirectory⟩ => ⟨hnone, halike.find?_directory hdirectory⟩

/-- Templates at different places touch no place in common. -/
theorem not_touches {first second : Text} (hfirst : tree.HasTemplate first)
    (hsecond : tree.HasTemplate second) (hne : tree.newPlace? first ≠ tree.newPlace? second)
    (h : tree.Touches first place) : ¬ tree.Touches second place := by
  obtain ⟨directory, stem, hfirst⟩ := hfirst
  obtain ⟨directory', stem', hsecond⟩ := hsecond
  intro h'
  have happart : ∀ extension : Text,
      directory ++ [stem ++ extension] ≠ directory' ++ [stem' ++ extension] := by
    intro extension heq
    obtain ⟨rfl, hname⟩ := List.append_inj' heq rfl
    obtain rfl := List.append_cancel_right (List.cons.inj hname).1
    exact hne (hfirst.template.trans hsecond.template.symm)
  rcases hfirst.of_touches h with rfl | rfl
  · rcases hsecond.of_touches h' with heq | heq
    · exact happart _ heq
    · exact template_ne_page _ _ _ _ heq
  · rcases hsecond.of_touches h' with heq | heq
    · exact template_ne_page _ _ _ _ heq.symm
    · exact happart _ heq

end HasTemplate

/-! ## Converting templates -/

/-- The text of the template at a path, if that can be read. -/
def text? (tree : FileTree) (source : Text) : Option Text :=
  match tree.read source with
  | .ok bytes => Text.ofBytes? bytes
  | .error _ => none

/-- Whether the file at a path is text, and the page that it is converted to can be written. -/
def isConvertible (tree : FileTree) (source : Text) : Bool :=
  match tree.text? source with
  | some text => (tree.write (Path.outputPath source) (convert text).page.toBytes).isOk
  | none => false

theorem isConvertible_iff :
    tree.isConvertible source = true ↔ ∃ text written, tree.text? source = some text
      ∧ tree.write (Path.outputPath source) (convert text).page.toBytes = .ok written := by
  unfold isConvertible
  cases tree.text? source with
  | none => simp
  | some text =>
      simp only [Option.some.injEq, exists_and_left, exists_eq_left']
      cases tree.write (Path.outputPath source) (convert text).page.toBytes with
      | error error => simp [Except.isOk, Except.toBool]
      | ok written => simp [Except.isOk, Except.toBool]

/--
What converting some templates makes of a tree: their pages are in it, complete; the templates are as they
were, or gone if that is asked for; and nothing else has changed.
-/
structure Converted (deleteSource : Bool) (before : FileTree) (sources : List Text) (after : FileTree) :
    Prop where
  alike : before.Alike after
  page : ∀ source ∈ sources, ∃ text, before.text? source = some text
    ∧ after.read (Path.outputPath source) = .ok (convert text).page.toBytes
  template : ∀ source ∈ sources,
    after.read source = if deleteSource then .error .notFound else before.read source
  other : ∀ place, (∀ source ∈ sources, ¬ before.Touches source place) →
    after.get? place = before.get? place

/-- Some templates, each at a place of its own. -/
structure Templates (tree : FileTree) (sources : List Text) : Prop where
  each : ∀ source ∈ sources, tree.HasTemplate source
  distinct : sources.Pairwise fun first second => tree.newPlace? first ≠ tree.newPlace? second

namespace HasTemplate

theorem read_eq (h : tree.HasTemplate source) (halike : tree.Alike other)
    (hkeeps : ∀ place, tree.newPlace? source = some place → other.get? place = tree.get? place) :
    other.read source = tree.read source := by
  obtain ⟨place, _, _, hplace, _⟩ := h.exists_places
  exact read_congr hplace ((halike.newPlace? source).trans hplace) (hkeeps place hplace)

theorem isConvertible_eq (h : tree.HasTemplate source) (halike : tree.Alike other)
    (hkeeps : ∀ place, tree.newPlace? source = some place → other.get? place = tree.get? place) :
    other.isConvertible source = tree.isConvertible source := by
  have htext : other.text? source = tree.text? source := by
    rw [text?, h.read_eq halike hkeeps, text?]
  have hwrite : ∀ content, (other.write (Path.outputPath source) content).isOk
      = (tree.write (Path.outputPath source) content).isOk := by
    intro content
    obtain ⟨_, _, _, _, _, _, hpage | hdirectory⟩ := h.exists_places
    · rw [write_of_newPlace? hpage, write_of_newPlace? ((halike.newPlace? _).trans hpage),
        halike.isDirectory]
      unfold put
      rw [halike.refusal?]
      split
      · rfl
      · split <;> rfl
    · rw [write_of_directory hdirectory, write_of_directory (halike.find?_directory hdirectory)]
  rw [isConvertible, htext, isConvertible]
  split
  · exact hwrite _
  · rfl

/-- One template is converted if its page is at its place, and all other places are as they have to be. -/
theorem converted_single {deleteSource : Bool} {text : Text} {pagePlace : List Text}
    (htext : tree.text? source = some text) (htemplate : tree.newPlace? source = some place)
    (hpage : tree.newPlace? (Path.outputPath source) = some pagePlace) (hne : place ≠ pagePlace)
    (halike : tree.Alike other)
    (hget : ∀ found, other.get? found =
      if found = pagePlace then some (.file (convert text).page.toBytes)
      else if deleteSource && found = place then none else tree.get? found) :
    Converted deleteSource tree [source] other := by
  have htemplate' : other.newPlace? source = some place := (halike.newPlace? source).trans htemplate
  refine ⟨halike, ?_, ?_, fun found hfound => ?_⟩
  · simp only [List.mem_singleton, forall_eq]
    refine ⟨text, htext, read_of_newPlace? ((halike.newPlace? _).trans hpage) ?_⟩
    rw [hget, if_pos rfl]
  · simp only [List.mem_singleton, forall_eq]
    have hnode : other.get? place = if deleteSource then none else tree.get? place := by
      simp [hget, hne]
    cases deleteSource with
    | true => rw [read, find?_of_newPlace? htemplate', hnode]; rfl
    | false => exact read_congr htemplate htemplate' hnode
  · obtain ⟨hplace, hpagePlace⟩ := not_or.mp (hfound source List.mem_cons_self)
    have hne : found ≠ place ∧ found ≠ pagePlace :=
      ⟨fun heq => hplace (heq ▸ htemplate), fun heq => hpagePlace (heq ▸ hpage)⟩
    simp [hget, hne]

/-- Writing the page of a template, and then removing the template, does just that. -/
theorem converted (h : tree.HasTemplate source) {text : Text} (htext : tree.text? source = some text)
    {written : FileTree}
    (hwrite : tree.write (Path.outputPath source) (convert text).page.toBytes = .ok written) :
    Converted false tree [source] written
      ∧ ∃ removed, written.remove source = .ok removed ∧ Converted true tree [source] removed := by
  obtain ⟨place, pagePlace, content, htemplate, hfile, hne, hpage | hdirectory⟩ := h.exists_places
  case inr =>
    rw [write_of_directory hdirectory] at hwrite
    cases hwrite
  have hpageNe := ne_nil_of_newPlace? hpage
  have hplaceNe := ne_nil_of_newPlace? htemplate
  obtain ⟨hnot, rfl⟩ : tree.isDirectory pagePlace = false
      ∧ written = tree.insert pagePlace (.file (convert text).page.toBytes) := by
    rw [write_of_newPlace? hpage] at hwrite
    split at hwrite
    · cases hwrite
    · rename_i hnot
      unfold put at hwrite
      split at hwrite
      · exact ⟨by simpa using hnot, (Except.ok.inj hwrite).symm⟩
      · cases hwrite
  have hinserted := get?_insert tree hpageNe (.file (convert text).page.toBytes)
  have halike := alike_insert hpageNe hnot (convert text).page.toBytes
  have hfile' := (hinserted place).trans ((if_neg hne).trans hfile)
  refine ⟨converted_single htext htemplate hpage hne halike (by simpa using hinserted), _,
    remove_of_newPlace? ((halike.newPlace? source).trans htemplate) hfile',
    converted_single htext htemplate hpage hne
      (halike.trans (alike_erase hplaceNe (isDirectory_of_file hfile'))) fun found => ?_⟩
  rw [get?_erase _ hplaceNe, hinserted]
  by_cases hfound : found = place
  · simp [hfound, hne]
  · simp [hfound]

end HasTemplate

section

variable {deleteSource : Bool} {before middle after : FileTree} {later : Text}

namespace Templates

theorem sublist {part : List Text} (h : tree.Templates sources) (hpart : part.Sublist sources) :
    tree.Templates part :=
  ⟨fun source hsource => h.each source (hpart.subset hsource), h.distinct.sublist hpart⟩

variable (hsources : before.Templates (source :: sources))
  (h : Converted deleteSource before [source] middle) (hlater : later ∈ sources)

include hsources in
/-- The first template and a later one touch no place in common. -/
theorem not_touches_of_mem (hlater : later ∈ sources) (ht : before.Touches source place) :
    ¬ before.Touches later place := by
  obtain ⟨hfirst, hrest⟩ := List.forall_mem_cons.mp hsources.each
  exact hfirst.not_touches (hrest later hlater)
    ((List.pairwise_cons.mp hsources.distinct).1 later hlater) ht

include hsources h hlater in
/-- Converting the first template keeps what a later one touches. -/
theorem get?_eq (ht : before.Touches later place) : middle.get? place = before.get? place := by
  refine h.other place fun first hfirst hfirstTouches => ?_
  obtain rfl := List.mem_singleton.mp hfirst
  exact hsources.not_touches_of_mem hlater hfirstTouches ht

include hsources h hlater in
theorem read_eq : middle.read later = before.read later :=
  (hsources.each later (List.mem_cons_of_mem _ hlater)).read_eq h.alike
    fun _ hplace => hsources.get?_eq h hlater (.inl hplace)

include hsources h hlater in
theorem text?_eq : middle.text? later = before.text? later := by
  rw [text?, hsources.read_eq h hlater, text?]

include hsources h hlater in
theorem isConvertible_eq : middle.isConvertible later = before.isConvertible later :=
  (hsources.each later (List.mem_cons_of_mem _ hlater)).isConvertible_eq h.alike
    fun _ hplace => hsources.get?_eq h hlater (.inl hplace)

include hsources h in
/-- Converting the first template leaves the later ones to be converted. -/
theorem tail : middle.Templates sources := by
  refine ⟨fun later hlater => ?_, ?_⟩
  · exact (hsources.each later (List.mem_cons_of_mem _ hlater)).of_alike h.alike
      fun _ hplace => hsources.get?_eq h hlater (.inl hplace)
  · simp only [h.alike.newPlace?]
    exact (List.pairwise_cons.mp hsources.distinct).2

end Templates

namespace Converted

theorem nil (tree : FileTree) : Converted deleteSource tree [] tree :=
  ⟨.refl tree, by simp, by simp, fun _ _ => rfl⟩

/-- Templates at places of their own are converted one after the other. -/
theorem cons (hsources : before.Templates (source :: sources))
    (h : Converted deleteSource before [source] middle) (h' : Converted deleteSource middle sources after) :
    Converted deleteSource before (source :: sources) after := by
  -- What the first conversion has made of its two places is left alone by the later ones.
  have hkeeps : ∀ place, before.Touches source place → after.get? place = middle.get? place :=
    fun place ht => h'.other place fun later hlater hlaterTouches =>
      hsources.not_touches_of_mem hlater ht (h.alike.touches_iff.mp hlaterTouches)
  obtain ⟨place, pagePlace, _, htemplate, _, _, hpage⟩ :=
    (hsources.each source List.mem_cons_self).exists_places
  have halike := h.alike.trans h'.alike
  refine ⟨halike, List.forall_mem_cons.mpr ⟨?_, fun later hlater => ?_⟩,
    List.forall_mem_cons.mpr ⟨?_, fun later hlater => ?_⟩, fun found hfound => ?_⟩
  · obtain ⟨text, htext, hread⟩ := h.page source List.mem_cons_self
    refine ⟨text, htext, ?_⟩
    rcases hpage with hpage | hdirectory
    · rw [← hread]
      exact read_congr ((h.alike.newPlace? _).trans hpage) ((halike.newPlace? _).trans hpage)
        (hkeeps pagePlace (.inr hpage))
    · rw [read, h.alike.find?_directory hdirectory] at hread
      cases hread
  · rw [← hsources.text?_eq h hlater]
    exact h'.page later hlater
  · rw [← h.template source List.mem_cons_self]
    exact read_congr ((h.alike.newPlace? _).trans htemplate) ((halike.newPlace? _).trans htemplate)
      (hkeeps place (.inl htemplate))
  · rw [h'.template later hlater, hsources.read_eq h hlater]
  · obtain ⟨hfirst, hrest⟩ := List.forall_mem_cons.mp hfound
    rw [h'.other found fun later hlater ht => hrest later hlater (h.alike.touches_iff.mp ht)]
    exact h.other found (by simpa using hfirst)

/-- A template that is not among those converted is as it was. -/
theorem read_eq (hsources : before.Templates sources) {part : List Text} (hpart : part ⊆ sources)
    (h : Converted deleteSource before part after) (hsource : source ∈ sources) (hnot : source ∉ part) :
    after.read source = before.read source := by
  have hsymm : Std.Symm fun first second => before.newPlace? first ≠ before.newPlace? second :=
    ⟨fun _ _ => Ne.symm⟩
  have hdistinct : ∀ first ∈ part, before.newPlace? first ≠ before.newPlace? source := fun first hfirst =>
    hsources.distinct.forall (hpart hfirst) hsource fun heq => hnot (heq ▸ hfirst)
  refine (hsources.each source hsource).read_eq h.alike fun place hplace => ?_
  exact h.other place fun first hfirst ht =>
    (hsources.each first (hpart hfirst)).not_touches (hsources.each source hsource)
      (hdistinct first hfirst) ht (.inl hplace)

end Converted

end

/-! ## The templates that a path stands for -/

/-- The template at a path, or the templates below the directory at the path. -/
def selection (tree : FileTree) (path : Text) : List Text :=
  match tree.find? path with
  | some (.file _) => [path].filter Path.isTemplate
  | some .directory => ((tree.filesBelow path).map (Path.below path)).filter Path.isTemplate
  | none => []

theorem WellFormed.templates_selection (hwf : tree.WellFormed) (path : Text) :
    tree.Templates (tree.selection path) := by
  unfold selection
  split
  · rename_i content hfile
    refine ⟨fun source hsource => ?_, (List.pairwise_singleton _ _).filter _⟩
    obtain ⟨hmem, ht⟩ := List.mem_filter.mp hsource
    obtain rfl := List.mem_singleton.mp hmem
    exact hwf.hasTemplate hfile ht
  · rename_i hdirectory
    refine ⟨fun source hsource => ?_, (List.pairwise_map.mpr ?_).filter _⟩
    · obtain ⟨hmem, ht⟩ := List.mem_filter.mp hsource
      obtain ⟨relative, hrelative, rfl⟩ := List.mem_map.mp hmem
      obtain ⟨_, _, _, hplace, hfile⟩ := hwf.of_mem_filesBelow hdirectory hrelative
      exact hwf.hasTemplate ((find?_of_newPlace? hplace).trans hfile) ht
    · refine (hwf.nodup_filesBelow path).imp_of_mem fun hfirst hsecond hne heq => hne ?_
      obtain ⟨base, _, hbase, hplace, _⟩ := hwf.of_mem_filesBelow hdirectory hfirst
      obtain ⟨base', _, hbase', hplace', _⟩ := hwf.of_mem_filesBelow hdirectory hsecond
      rw [hbase, Option.some.injEq] at hbase'
      rw [hplace, hplace', Option.some.injEq, hbase'] at heq
      exact List.append_cancel_left heq
  · exact ⟨by simp, .nil⟩

end Haml.Command.FileTree
