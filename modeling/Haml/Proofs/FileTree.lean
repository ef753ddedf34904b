import Haml.Command.FileTree
import Haml.Proofs.Path
import Mathlib.Data.List.Induction
import Mathlib.Data.List.Nodup

/-!
# Places in a file tree

A path that ends in a name leads to a place, whether that place holds something or not, and what is read,
written and removed is what is at the place. Where the place is depends on the directories alone.
-/

namespace Haml.Command.FileTree

variable {tree other : FileTree} {place : List Text} {path : Text}

/-! ## Entries -/

theorem isDirectory_iff : tree.isDirectory place = true ↔ tree.get? place = some .directory := by
  unfold isDirectory
  split <;> simp_all

theorem isDirectory_of_file {content : ByteArray} (h : tree.get? place = some (.file content)) :
    tree.isDirectory place = false := by
  rw [isDirectory, h]

theorem mem_of_get? {node : Node} (h : tree.get? place = some node) (hplace : place ≠ []) :
    (place, node) ∈ tree.entries := by
  rw [get?, if_neg hplace] at h
  obtain ⟨above, below, hentries, _⟩ := List.lookup_eq_some_iff.mp h
  simp [hentries]

theorem lookup_filter_ne (entries : List (List Text × Node)) (place found : List Text) :
    (entries.filter (·.1 ≠ place)).lookup found
      = if found = place then none else entries.lookup found := by
  induction entries with
  | nil => simp
  | cons entry rest ih =>
      by_cases hkey : entry.1 = place
      · rw [List.filter_cons_of_neg (by simpa using hkey), ih, List.lookup_cons, hkey]
        by_cases hfound : found = place
        · simp [hfound]
        · simp [hfound, beq_false_of_ne hfound]
      · rw [List.filter_cons_of_pos (by simpa using hkey), List.lookup_cons, List.lookup_cons, ih]
        cases hfound : found == entry.1 with
        | false => rfl
        | true => simp [beq_iff_eq.mp hfound, hkey]

theorem get?_erase (tree : FileTree) (h : place ≠ []) (found : List Text) :
    (tree.erase place).get? found = if found = place then none else tree.get? found := by
  unfold get? erase
  rw [lookup_filter_ne]
  by_cases hnil : found = []
  · rw [if_pos hnil, if_pos hnil, if_neg (hnil ▸ Ne.symm h)]
  · rw [if_neg hnil, if_neg hnil]

theorem get?_insert (tree : FileTree) (h : place ≠ []) (node : Node) (found : List Text) :
    (tree.insert place node).get? found = if found = place then some node else tree.get? found := by
  unfold get? insert
  rw [List.lookup_cons, lookup_filter_ne]
  by_cases hfound : found = place
  · simp [hfound, h]
  · simp [hfound, beq_false_of_ne hfound]

/-! ## Trees with the same directories -/

/-- Two trees that have the same directories, start paths at the same one and refuse the same files. -/
structure Alike (tree other : FileTree) : Prop where
  isDirectory : ∀ place, other.isDirectory place = tree.isDirectory place
  workingDirectory : other.workingDirectory = tree.workingDirectory
  refusal? : other.refusal? = tree.refusal?

theorem Alike.refl (tree : FileTree) : tree.Alike tree := ⟨fun _ => rfl, rfl, rfl⟩

theorem Alike.symm (h : tree.Alike other) : other.Alike tree :=
  ⟨fun place => (h.isDirectory place).symm, h.workingDirectory.symm, h.refusal?.symm⟩

theorem Alike.trans {third : FileTree} (h : tree.Alike other) (h' : other.Alike third) :
    tree.Alike third :=
  ⟨fun place => (h'.isDirectory place).trans (h.isDirectory place),
    h'.workingDirectory.trans h.workingDirectory, h'.refusal?.trans h.refusal?⟩

theorem Alike.startOf (h : tree.Alike other) (path : Text) : other.startOf path = tree.startOf path := by
  rw [FileTree.startOf, h.workingDirectory, FileTree.startOf]

theorem alike_insert (h : place ≠ []) (hplace : tree.isDirectory place = false) (content : ByteArray) :
    tree.Alike (tree.insert place (.file content)) := by
  refine ⟨fun found => Bool.eq_iff_iff.mpr ?_, rfl, rfl⟩
  rw [isDirectory_iff, isDirectory_iff, get?_insert tree h]
  split
  · rename_i hfound
    rw [hfound, ← isDirectory_iff, hplace]
    simp
  · rfl

theorem alike_erase (h : place ≠ []) (hplace : tree.isDirectory place = false) :
    tree.Alike (tree.erase place) := by
  refine ⟨fun found => Bool.eq_iff_iff.mpr ?_, rfl, rfl⟩
  rw [isDirectory_iff, isDirectory_iff, get?_erase tree h]
  split
  · rename_i hfound
    rw [hfound, ← isDirectory_iff, hplace]
    simp
  · rfl

/-! ## Walks -/

theorem walk?_append (place above below : List Text) :
    tree.walk? place (above ++ below) = (tree.walk? place above).bind (tree.walk? · below) := by
  induction above generalizing place with
  | nil => rfl
  | cons piece pieces ih =>
      simp only [List.cons_append, walk?]
      cases tree.step? place piece with
      | none => rfl
      | some next => exact ih next

/-- Where one piece leads from a place. -/
theorem step?_eq_some_iff {piece : Text} {next : List Text} :
    tree.step? place piece = some next ↔
      tree.isDirectory place = true
        ∧ if Path.isIdle piece then next = place
          else if piece = ['.', '.'] then next = place.dropLast
          else (tree.get? (place ++ [piece])).isSome = true ∧ next = place ++ [piece] := by
  unfold step?
  cases tree.isDirectory place with
  | false => simp
  | true =>
      rw [if_neg (by simp)]
      split_ifs with hidle hdots hnode
      · simp [eq_comm]
      · simp [eq_comm]
      · simp [hnode, @eq_comm _ next]
      · simp [hnode]

namespace Alike

variable {next found : List Text} {piece : Text} {pieces : List Text}

theorem step? (h : tree.Alike other) (hstep : tree.step? place piece = some next)
    (hnext : tree.isDirectory next = true) : other.step? place piece = some next := by
  rw [step?_eq_some_iff] at hstep ⊢
  obtain ⟨hplace, hpiece⟩ := hstep
  refine ⟨(h.isDirectory place).trans hplace, ?_⟩
  split_ifs at hpiece ⊢
  · exact hpiece
  · exact hpiece
  · obtain ⟨_, rfl⟩ := hpiece
    have hnode := isDirectory_iff.mp ((h.isDirectory _).trans hnext)
    exact ⟨by simp [hnode], rfl⟩

theorem walk? (h : tree.Alike other) (hwalk : tree.walk? place pieces = some found)
    (hfound : tree.isDirectory found = true) : other.walk? place pieces = some found := by
  induction pieces generalizing place with
  | nil => exact hwalk
  | cons piece pieces ih =>
      obtain ⟨next, hstep, hrest⟩ := Option.bind_eq_some_iff.mp hwalk
      -- Every step of a walk starts from a directory.
      have hnext : tree.isDirectory next = true := by
        cases pieces with
        | nil =>
            cases hrest
            exact hfound
        | cons piece pieces =>
            obtain ⟨_, hmore, _⟩ := Option.bind_eq_some_iff.mp hrest
            exact (step?_eq_some_iff.mp hmore).1
      exact Option.bind_eq_some_iff.mpr ⟨next, h.step? hstep hnext, ih hrest⟩

end Alike

/-! ## Paths that end in a name -/

theorem newPlace?_eq_some_iff :
    tree.newPlace? path = some place ↔
      ∃ above name directory, Path.pieces path = above ++ [name] ∧ Path.IsName name
        ∧ tree.walk? (tree.startOf path) above = some directory
        ∧ tree.isDirectory directory = true ∧ place = directory ++ [name] := by
  obtain ⟨above, name, hpieces⟩ := Path.exists_pieces path
  have hslash : '/' ∉ name := Path.slash_notMem_of_pieces hpieces
  rw [newPlace?, hpieces, List.getLast?_concat, List.dropLast_concat]
  constructor
  · intro h
    split at h
    · rename_i last directory hlast hwalk
      cases hlast
      obtain ⟨hcondition, hplace⟩ := Option.ite_none_right_eq_some.mp h
      cases hplace
      simp only [Bool.and_eq_true, Bool.not_eq_true', bne_iff_ne] at hcondition
      obtain ⟨⟨hdirectory, hidle⟩, hdots⟩ := hcondition
      exact ⟨above, name, directory, rfl, ⟨hslash, hidle, hdots⟩, hwalk, hdirectory, rfl⟩
    · cases h
  · rintro ⟨_, _, directory, heq, hname, hwalk, hdirectory, rfl⟩
    obtain ⟨rfl, hlast⟩ := List.append_inj' heq rfl
    cases hlast
    simp [hwalk, hdirectory, hname.not_isIdle, hname.ne_dots]

theorem newPlace?_dots {above : List Text} (h : Path.pieces path = above ++ [['.', '.']]) :
    tree.newPlace? path = none := by
  cases hplace : tree.newPlace? path with
  | none => rfl
  | some place =>
      obtain ⟨_, _, _, hpieces, hname, _⟩ := newPlace?_eq_some_iff.mp hplace
      obtain ⟨_, hlast⟩ := List.append_inj' (h.symm.trans hpieces) rfl
      cases hlast
      exact absurd rfl hname.ne_dots

theorem ne_nil_of_newPlace? (h : tree.newPlace? path = some place) : place ≠ [] := by
  obtain ⟨_, _, _, _, _, _, _, rfl⟩ := newPlace?_eq_some_iff.mp h
  simp

theorem Alike.newPlace? (h : tree.Alike other) (path : Text) :
    other.newPlace? path = tree.newPlace? path := by
  have hkeeps : ∀ {tree other : FileTree}, tree.Alike other → ∀ place,
      tree.newPlace? path = some place → other.newPlace? path = some place := by
    intro tree other h place hplace
    obtain ⟨above, name, directory, hpieces, hname, hwalk, hdirectory, rfl⟩ :=
      newPlace?_eq_some_iff.mp hplace
    exact newPlace?_eq_some_iff.mpr ⟨above, name, directory, hpieces, hname,
      h.startOf path ▸ h.walk? hwalk hdirectory, (h.isDirectory directory).trans hdirectory, rfl⟩
  exact Option.ext fun place => ⟨hkeeps h.symm place, hkeeps h place⟩

theorem locate?_of_newPlace? (h : tree.newPlace? path = some place) :
    tree.locate? path = if (tree.get? place).isSome then some place else none := by
  obtain ⟨above, name, directory, hpieces, hname, hwalk, hdirectory, rfl⟩ := newPlace?_eq_some_iff.mp h
  rw [locate?, if_neg (Path.ne_nil_of_pieces hpieces hname.ne_nil), hpieces, walk?_append, hwalk]
  simp [walk?, step?, hdirectory, hname.not_isIdle, hname.ne_dots]

theorem find?_of_newPlace? (h : tree.newPlace? path = some place) : tree.find? path = tree.get? place := by
  rw [find?, locate?_of_newPlace? h]
  cases hnode : tree.get? place with
  | none => rfl
  | some node => exact hnode

theorem read_of_newPlace? (h : tree.newPlace? path = some place) {content : ByteArray}
    (hfile : tree.get? place = some (.file content)) : tree.read path = .ok content := by
  rw [read, find?_of_newPlace? h, hfile]

/-- What is read at a path is what is at its place. -/
theorem read_congr (h : tree.newPlace? path = some place) (h' : other.newPlace? path = some place)
    (hnode : other.get? place = tree.get? place) : other.read path = tree.read path := by
  rw [read, read, find?_of_newPlace? h, find?_of_newPlace? h', hnode]

theorem write_of_newPlace? (h : tree.newPlace? path = some place) (content : ByteArray) :
    tree.write path content
      = if tree.isDirectory place then .error .isDirectory else tree.put place content := by
  rw [write, locate?_of_newPlace? h]
  cases hnode : tree.get? place with
  | none =>
      have hplace : tree.isDirectory place = false := by simp [isDirectory, hnode]
      simp [h, hplace]
  | some node => rfl

theorem write_of_directory (h : tree.find? path = some .directory) (content : ByteArray) :
    tree.write path content = .error .isDirectory := by
  obtain ⟨place, hlocate, hnode⟩ := Option.bind_eq_some_iff.mp h
  have hplace : tree.isDirectory place = true := isDirectory_iff.mpr hnode
  simp [write, hlocate, hplace]

theorem Alike.find?_directory (h : tree.Alike other) (hpath : tree.find? path = some .directory) :
    other.find? path = some .directory := by
  obtain ⟨place, hlocate, hnode⟩ := Option.bind_eq_some_iff.mp hpath
  have hplace : tree.isDirectory place = true := isDirectory_iff.mpr hnode
  obtain ⟨hne, hwalk⟩ := Option.ite_none_left_eq_some.mp hlocate
  have hlocate' : other.locate? path = some place :=
    Option.ite_none_left_eq_some.mpr ⟨hne, h.startOf path ▸ h.walk? hwalk hplace⟩
  exact Option.bind_eq_some_iff.mpr ⟨place, hlocate', isDirectory_iff.mp ((h.isDirectory place).trans hplace)⟩

theorem remove_of_newPlace? (h : tree.newPlace? path = some place) {content : ByteArray}
    (hfile : tree.get? place = some (.file content)) : tree.remove path = .ok (tree.erase place) := by
  rw [remove, locate?_of_newPlace? h]
  simp [hfile, isDirectory_of_file hfile]

/-! ## Well-formed trees -/

/-- What a file system warrants: each place has one entry, under proper names, and is in a directory. -/
structure WellFormed (tree : FileTree) : Prop where
  nodup : (tree.entries.map Prod.fst).Nodup
  isName : ∀ entry ∈ tree.entries, ∀ name ∈ entry.1, Path.IsName name
  ne_nil : ∀ entry ∈ tree.entries, entry.1 ≠ []
  enclosed : ∀ entry ∈ tree.entries, tree.isDirectory entry.1.dropLast = true

instance (tree : FileTree) : Decidable tree.WellFormed :=
  decidable_of_iff ((tree.entries.map Prod.fst).Nodup
      ∧ (∀ entry ∈ tree.entries, ∀ name ∈ entry.1, Path.IsName name)
      ∧ (∀ entry ∈ tree.entries, entry.1 ≠ [])
      ∧ ∀ entry ∈ tree.entries, tree.isDirectory entry.1.dropLast = true)
    ⟨fun ⟨hnodup, hnames, hne, henclosed⟩ => ⟨hnodup, hnames, hne, henclosed⟩,
      fun ⟨hnodup, hnames, hne, henclosed⟩ => ⟨hnodup, hnames, hne, henclosed⟩⟩

namespace WellFormed

variable {content : ByteArray} {base relative : List Text}

theorem get?_of_mem (hwf : tree.WellFormed) {node : Node} (h : (place, node) ∈ tree.entries) :
    tree.get? place = some node := by
  rw [get?, if_neg (hwf.ne_nil _ h), List.lookup_eq_some_iff]
  obtain ⟨above, below, hentries⟩ := List.append_of_mem h
  refine ⟨above, below, hentries, fun entry hentry => bne_iff_ne.mpr ?_⟩
  have hnodup := hwf.nodup
  rw [hentries, List.map_append, List.map_cons] at hnodup
  have hnotMem := (List.nodup_middle.mp hnodup).notMem
  rintro rfl
  exact hnotMem (List.mem_append_left _ (List.mem_map.mpr ⟨entry, hentry, rfl⟩))

theorem isDirectory_dropLast (hwf : tree.WellFormed) (h : tree.isDirectory place = true) :
    tree.isDirectory place.dropLast = true := by
  by_cases hplace : place = []
  · rwa [hplace] at h ⊢
  · exact hwf.enclosed _ (mem_of_get? (isDirectory_iff.mp h) hplace)

/-- Two dots lead from a directory to a directory. -/
theorem find?_dots (hwf : tree.WellFormed) {above : List Text}
    (h : Path.pieces path = above ++ [['.', '.']])
    (hwalk : tree.walk? (tree.startOf path) above = some place)
    (hplace : tree.isDirectory place = true) : tree.find? path = some .directory := by
  have hstep : tree.step? place ['.', '.'] = some place.dropLast :=
    step?_eq_some_iff.mpr ⟨hplace, rfl⟩
  rw [find?, locate?, if_neg (Path.ne_nil_of_pieces h (List.cons_ne_nil _ _)), h, walk?_append, hwalk]
  simp only [Option.bind_some, walk?, hstep]
  exact isDirectory_iff.mp (hwf.isDirectory_dropLast hplace)

/-- A path to a file ends in the name of the file. -/
theorem exists_newPlace? (hwf : tree.WellFormed) (h : tree.find? path = some (.file content)) :
    ∃ place, tree.newPlace? path = some place ∧ tree.get? place = some (.file content) := by
  obtain ⟨found, hlocate, hnode⟩ := Option.bind_eq_some_iff.mp h
  obtain ⟨above, name, hpieces⟩ := Path.exists_pieces path
  obtain ⟨_, hwalk⟩ := Option.ite_none_left_eq_some.mp hlocate
  rw [hpieces, walk?_append] at hwalk
  obtain ⟨directory, hbefore, hlast⟩ := Option.bind_eq_some_iff.mp hwalk
  obtain ⟨_, hstep, hfound⟩ := Option.bind_eq_some_iff.mp hlast
  cases hfound
  obtain ⟨hdirectory, hpiece⟩ := step?_eq_some_iff.mp hstep
  have hnot : tree.isDirectory found = false := isDirectory_of_file hnode
  -- Neither an idle piece nor two dots lead to a file: they lead to directories.
  split_ifs at hpiece with hidle hdots
  · rw [hpiece, hdirectory] at hnot
    cases hnot
  · rw [hpiece, hwf.isDirectory_dropLast hdirectory] at hnot
    cases hnot
  · obtain ⟨_, rfl⟩ := hpiece
    have hname : Path.IsName name :=
      ⟨Path.slash_notMem_of_pieces hpieces, by simpa using hidle, hdots⟩
    exact ⟨directory ++ [name],
      newPlace?_eq_some_iff.mpr ⟨above, name, directory, hpieces, hname, hbefore, hdirectory, rfl⟩, hnode⟩

theorem walk?_relative (hwf : tree.WellFormed) (hnames : ∀ name ∈ relative, Path.IsName name)
    (h : tree.isDirectory (base ++ relative) = true) :
    tree.walk? base relative = some (base ++ relative) := by
  induction relative using List.reverseRecOn with
  | nil => simp [walk?]
  | append_singleton above name ih =>
      obtain ⟨habove, hname⟩ := List.forall_mem_append.mp hnames
      have hname : Path.IsName name := hname name List.mem_cons_self
      have hbefore : tree.isDirectory (base ++ above) = true := by
        simpa [← List.append_assoc] using hwf.isDirectory_dropLast h
      have hstep : tree.step? (base ++ above) name = some (base ++ (above ++ [name])) := by
        rw [← List.append_assoc] at h ⊢
        rw [step?_eq_some_iff, if_neg (by simp [hname.not_isIdle]), if_neg hname.ne_dots,
          isDirectory_iff.mp h]
        exact ⟨hbefore, rfl, rfl⟩
      rw [walk?_append, ih habove hbefore]
      simp [walk?, hstep]

/-- The entries that a listing of what is below a place is made of. -/
theorem relative?_eq_some_iff {entry : List Text × Node} {node : Node} :
    relative? base entry = some (relative, node) ↔ entry = (base ++ relative, node) := by
  constructor
  · intro h
    obtain ⟨hbase, hrelative⟩ := Option.ite_none_right_eq_some.mp h
    obtain ⟨rest, hrest⟩ := List.isPrefixOf_iff_prefix.mp hbase
    rw [← hrest, List.drop_left, Option.some.injEq, Prod.mk.injEq] at hrelative
    obtain ⟨rfl, rfl⟩ := hrelative
    rw [hrest]
  · rintro rfl
    have hprefix : base.isPrefixOf (base ++ relative) = true :=
      List.isPrefixOf_iff_prefix.mpr (List.prefix_append _ _)
    simp [relative?, hprefix]

theorem mem_nodesBelow_iff {node : Node} :
    (relative, node) ∈ tree.nodesBelow base ↔ (base ++ relative, node) ∈ tree.entries := by
  simp [nodesBelow, List.mem_filterMap, relative?_eq_some_iff]

/-- A path below the path of a place leads to the place below. -/
theorem newPlace?_below (hwf : tree.WellFormed) (hlocate : tree.locate? path = some base)
    (hbase : tree.isDirectory base = true) (hmem : (base ++ relative, .file content) ∈ tree.entries) :
    tree.newPlace? (Path.below path relative) = some (base ++ relative) := by
  have hnames : ∀ name ∈ relative, Path.IsName name :=
    fun name hname => hwf.isName _ hmem name (List.mem_append_right _ hname)
  have hne : relative ≠ [] := by
    rintro rfl
    have hfile := hwf.get?_of_mem hmem
    rw [List.append_nil, isDirectory_iff.mp hbase] at hfile
    cases hfile
  obtain ⟨hpath, hwalk⟩ := Option.ite_none_left_eq_some.mp hlocate
  obtain ⟨above, hpieces, hdirectory⟩ :=
    Path.pieces_below path (fun name hname => (hnames name hname).slash_notMem) hne
  have habove : tree.walk? (tree.startOf path) above = some base := by
    rcases hdirectory with heq | heq
    · rwa [heq] at hwalk
    · rw [heq, walk?_append] at hwalk
      obtain ⟨before, hbefore, hlast⟩ := Option.bind_eq_some_iff.mp hwalk
      obtain ⟨_, hstep, hfound⟩ := Option.bind_eq_some_iff.mp hlast
      cases hfound
      obtain ⟨_, hidle⟩ := step?_eq_some_iff.mp hstep
      rw [if_pos (by decide)] at hidle
      rw [hidle, hbefore]
  have hstart : tree.startOf (Path.below path relative) = tree.startOf path := by
    obtain ⟨c, cs, rfl⟩ := List.exists_cons_of_ne_nil hpath
    unfold startOf Path.below
    split <;> simp
  obtain ⟨names, name, rfl⟩ : ∃ names name, relative = names ++ [name] :=
    ⟨_, _, (List.dropLast_append_getLast hne).symm⟩
  obtain ⟨hfront, hlast⟩ := List.forall_mem_append.mp hnames
  have hinner : tree.isDirectory (base ++ names) = true := by
    have henclosed := hwf.enclosed _ hmem
    rwa [← List.append_assoc, List.dropLast_concat] at henclosed
  refine newPlace?_eq_some_iff.mpr
    ⟨above ++ names, name, base ++ names, ?_, hlast name (by simp), ?_, hinner, ?_⟩
  · rw [hpieces, List.append_assoc]
  · rw [hstart, walk?_append, habove]
    exact hwf.walk?_relative hfront hinner
  · rw [List.append_assoc]

theorem mem_filesBelow_iff (hlocate : tree.locate? path = some base) :
    relative ∈ tree.filesBelow path ↔ ∃ content, (base ++ relative, .file content) ∈ tree.entries := by
  rw [filesBelow, hlocate]
  simp only [List.mem_mergeSort, List.mem_map, List.mem_filter, decide_eq_true_eq]
  constructor
  · rintro ⟨⟨_, node⟩, ⟨hmem, hkind⟩, rfl⟩
    cases node with
    | directory => cases hkind
    | file content => exact ⟨content, mem_nodesBelow_iff.mp hmem⟩
  · rintro ⟨content, hmem⟩
    exact ⟨(relative, .file content), ⟨mem_nodesBelow_iff.mpr hmem, rfl⟩, rfl⟩

/-- Every name that is listed below a directory leads to a file. -/
theorem of_mem_filesBelow (hwf : tree.WellFormed) (hdirectory : tree.find? path = some .directory)
    (hmem : relative ∈ tree.filesBelow path) :
    ∃ base content, tree.locate? path = some base
      ∧ tree.newPlace? (Path.below path relative) = some (base ++ relative)
      ∧ tree.get? (base ++ relative) = some (.file content) := by
  obtain ⟨base, hlocate, hnode⟩ := Option.bind_eq_some_iff.mp hdirectory
  obtain ⟨content, hentry⟩ := (mem_filesBelow_iff hlocate).mp hmem
  exact ⟨base, content, hlocate, hwf.newPlace?_below hlocate (isDirectory_iff.mpr hnode) hentry,
    hwf.get?_of_mem hentry⟩

theorem nodup_filesBelow (hwf : tree.WellFormed) (path : Text) : (tree.filesBelow path).Nodup := by
  unfold filesBelow
  split
  · rename_i base _
    refine (List.mergeSort_perm _ _).nodup_iff.mpr (List.pairwise_map.mpr (List.Pairwise.filter _ ?_))
    refine (List.pairwise_map.mp hwf.nodup).filterMap _ fun entry entry' hkeys found hfound found' hfound' heq =>
      hkeys ?_
    obtain rfl := relative?_eq_some_iff.mp hfound
    obtain rfl := relative?_eq_some_iff.mp hfound'
    exact congrArg (base ++ ·) heq
  · exact List.nodup_nil

end WellFormed

end Haml.Command.FileTree
