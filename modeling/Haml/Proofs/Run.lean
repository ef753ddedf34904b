import Haml.Command.Run
import Haml.Proofs.Template
import Mathlib.Data.List.TakeWhile

/-!
# Runs on a file tree

A run on a file tree converts the templates that its path stands for, one after the other, up to the first
one that is no text or whose page cannot be written. Main statements: a run makes exactly the pages of the
templates before that one, and succeeds if there is none and at least one template; a dry run leaves the
tree alone, and reports what the run would.

The paths of a tree are text, so that all reports on it are encoded. On a host with a path that cannot be
encoded the pages are written, and then none of the reports is printed.
-/

namespace Haml.Command

/-! ## Outcomes -/

namespace World

variable {α β : Type} {world middle : World}

/-- What an action gives, or why it fails, and the world after it. -/
def outcome (action : ExceptT Failure (StateM World) α) (world : World) : Except Failure α × World :=
  action.run.run world

@[simp] theorem outcome_pure (value : α) : outcome (pure value) world = (.ok value, world) := rfl

theorem outcome_bind (action : ExceptT Failure (StateM World) α)
    (next : α → ExceptT Failure (StateM World) β) :
    outcome (action >>= next) world
      = ExceptT.bindCont next (outcome action world).1 (outcome action world).2 :=
  rfl

theorem outcome_bind_ok {action : ExceptT Failure (StateM World) α} {value : α}
    (h : outcome action world = (.ok value, middle)) (next : α → ExceptT Failure (StateM World) β) :
    outcome (action >>= next) world = outcome (next value) middle := by
  rw [outcome_bind, h]
  rfl

theorem outcome_bind_error {action : ExceptT Failure (StateM World) α} {failure : Failure}
    (h : outcome action world = (.error failure, middle)) (next : α → ExceptT Failure (StateM World) β) :
    outcome (action >>= next) world = (.error failure, middle) := by
  rw [outcome_bind, h]
  rfl

theorem outcome_lift (operation : StateM World α) :
    outcome (liftM operation) world = (.ok (operation.run world).1, (operation.run world).2) :=
  rfl

theorem outcome_accessing (path : Text) (operation : StateM World (Except AccessError α)) :
    outcome (accessing path operation) world
      = ((operation.run world).1.mapError (.access path), (operation.run world).2) := by
  rw [outcome, accessing, ExceptT.run_mk, StateT.run_bind]
  rcases operation.run world with ⟨_ | _, _⟩ <;> rfl

theorem outcome_change_ok {operation : FileTree → Except AccessError FileTree} {tree : FileTree}
    (h : operation world.tree = .ok tree) (path : Text) :
    outcome (accessing path (change operation)) world = (.ok (), { world with tree }) := by
  have hrun : (change operation).run world = (.ok (), { world with tree }) := by
    simp only [change, StateT.run, h]
  rw [outcome_accessing, hrun]
  rfl

theorem outcome_change_error {operation : FileTree → Except AccessError FileTree} {error : AccessError}
    (h : operation world.tree = .error error) (path : Text) :
    outcome (accessing path (change operation)) world = (.error (.access path error), world) := by
  have hrun : (change operation).run world = (.error error, world) := by
    simp only [change, StateT.run, h]
  rw [outcome_accessing, hrun]
  rfl

end World

open World

variable {options : Options} {world : World} {source : Text} {sources : List Text} {text : Text}

/-! ## One template -/

theorem outcome_access (source : Text) :
    outcome (accessing source (Host.read source)) world
      = ((world.tree.read source).mapError (.access source), world) :=
  outcome_accessing source _

/-- Reading a template gives its text and changes nothing. -/
theorem outcome_read (htext : world.tree.text? source = some text) :
    ∃ bytes, outcome (accessing source (Host.read source)) world = (.ok bytes, world)
      ∧ outcome (decode source bytes) world = (.ok text, world) := by
  unfold FileTree.text? at htext
  split at htext
  · rename_i bytes hread
    refine ⟨bytes, ?_, ?_⟩
    · rw [outcome_access, hread]
      rfl
    · rw [decode, htext]
      rfl
  · cases htext

theorem outcome_convertFile_of_text?_eq_none (options : Options) (htext : world.tree.text? source = none) :
    ∃ failure, outcome (convertFile options source) world = (.error failure, world) := by
  have haccess := @outcome_access world source
  unfold FileTree.text? at htext
  split at htext
  · rename_i bytes hread
    rw [hread] at haccess
    have hdecode : outcome (decode source bytes) world = (.error (.access source .notUtf8), world) := by
      rw [decode, htext]
      rfl
    exact ⟨_, (outcome_bind_ok haccess _).trans (outcome_bind_error hdecode _)⟩
  · rename_i error hread
    rw [hread] at haccess
    exact ⟨_, outcome_bind_error haccess _⟩

/-- The report on a template of the given text. -/
def reportOf (written : Bool) (source text : Text) : FileReport :=
  ⟨source, Path.outputPath source, written, convert text⟩

theorem outcome_convertFile_dry (hdry : options.dryRun = true)
    (htext : world.tree.text? source = some text) :
    outcome (convertFile options source) world
      = (.ok (reportOf false source text),
          { world with told := world.told ++ [.converted (Path.outputPath source) true] }) := by
  obtain ⟨bytes, haccess, hdecode⟩ := outcome_read htext
  unfold convertFile
  rw [outcome_bind_ok haccess, outcome_bind_ok hdecode]
  simp only [hdry]
  rfl

/-- A template that cannot be converted stops the run before anything is changed. -/
theorem outcome_convertFile_of_not_isConvertible (hdry : options.dryRun = false)
    (h : ¬ world.tree.isConvertible source = true) :
    ∃ failure, outcome (convertFile options source) world = (.error failure, world) := by
  cases htext : world.tree.text? source with
  | none => exact outcome_convertFile_of_text?_eq_none options htext
  | some text =>
      obtain ⟨bytes, haccess, hdecode⟩ := outcome_read htext
      cases hwrite : world.tree.write (Path.outputPath source) (convert text).page.toBytes with
      | ok written => exact absurd (FileTree.isConvertible_iff.mpr ⟨text, written, htext, hwrite⟩) h
      | error error =>
          have hpage : outcome (writePage options source (Path.outputPath source) (convert text).page) world
              = (.error (.access (Path.outputPath source) error), world) :=
            outcome_bind_error (outcome_change_error hwrite _) _
          refine ⟨.access (Path.outputPath source) error, ?_⟩
          unfold convertFile
          rw [outcome_bind_ok haccess, outcome_bind_ok hdecode]
          simp only [hdry]
          exact outcome_bind_error hpage _

/-- The page of a template that can be converted is written, and the template removed if that is asked for. -/
theorem outcome_writePage (htemplate : world.tree.HasTemplate source)
    (htext : world.tree.text? source = some text) {written : FileTree}
    (hwrite : world.tree.write (Path.outputPath source) (convert text).page.toBytes = .ok written) :
    ∃ tree, FileTree.Converted options.deleteSource world.tree [source] tree
      ∧ outcome (writePage options source (Path.outputPath source) (convert text).page) world
        = (.ok (), { world with tree }) := by
  obtain ⟨hkept, removed, hremove, hremoved⟩ := htemplate.converted htext hwrite
  have hstart : outcome (accessing (Path.outputPath source)
      (Host.write (Path.outputPath source) (convert text).page.toBytes)) world
        = (.ok (), { world with tree := written }) := outcome_change_ok hwrite _
  cases hdelete : options.deleteSource with
  | false =>
      refine ⟨written, hkept, (outcome_bind_ok hstart _).trans ?_⟩
      rw [hdelete]
      rfl
  | true =>
      refine ⟨removed, hremoved, (outcome_bind_ok hstart _).trans ?_⟩
      rw [hdelete]
      exact outcome_change_ok hremove source

theorem outcome_convertFile (hdry : options.dryRun = false)
    (htemplate : world.tree.HasTemplate source) (h : world.tree.isConvertible source = true) :
    ∃ text tree, world.tree.text? source = some text
      ∧ FileTree.Converted options.deleteSource world.tree [source] tree
      ∧ outcome (convertFile options source) world
        = (.ok (reportOf true source text),
            { world with tree, told := world.told ++ [.converted (Path.outputPath source) false] }) := by
  obtain ⟨text, written, htext, hwrite⟩ := FileTree.isConvertible_iff.mp h
  obtain ⟨bytes, haccess, hdecode⟩ := outcome_read htext
  obtain ⟨tree, hconverted, hpage⟩ := outcome_writePage htemplate htext hwrite
  refine ⟨text, tree, htext, hconverted, ?_⟩
  unfold convertFile
  rw [outcome_bind_ok haccess, outcome_bind_ok hdecode]
  simp only [hdry]
  exact outcome_bind_ok hpage _

/-! ## Templates one after the other -/

/-- The reports on templates, if all of them are text. -/
def FileTree.reports (tree : FileTree) (written : Bool) (sources : List Text) : List FileReport :=
  sources.filterMap fun source => (tree.text? source).map (reportOf written source)

theorem FileTree.reports_cons {tree : FileTree} (htext : tree.text? source = some text) (written : Bool) :
    tree.reports written (source :: sources)
      = reportOf written source text :: tree.reports written sources := by
  simp [reports, htext]

theorem takeWhile_congr {α : Type} {p q : α → Bool} {l : List α} (h : ∀ a ∈ l, p a = q a) :
    l.takeWhile p = l.takeWhile q := by
  induction l with
  | nil => rfl
  | cons a l ih =>
      obtain ⟨ha, hl⟩ := List.forall_mem_cons.mp h
      simp only [List.takeWhile_cons, ha, ih hl]

/-- The templates are converted up to the first one that cannot be. -/
theorem outcome_convertFiles (hdry : options.dryRun = false) (hsources : world.tree.Templates sources) :
    ∃ after told,
      FileTree.Converted options.deleteSource world.tree (sources.takeWhile world.tree.isConvertible) after
        ∧ (sources.takeWhile world.tree.isConvertible = sources
            ∧ outcome (convertFiles options sources) world
              = (.ok (world.tree.reports true sources), { world with tree := after, told })
          ∨ sources.takeWhile world.tree.isConvertible ≠ sources
            ∧ ∃ failure, outcome (convertFiles options sources) world
              = (.error failure, { world with tree := after, told })) := by
  induction sources generalizing world with
  | nil => exact ⟨world.tree, world.told, .nil _, .inl ⟨rfl, rfl⟩⟩
  | cons source sources ih =>
      by_cases hconvertible : world.tree.isConvertible source = true
      · obtain ⟨text, middle, htext, hmiddle, hfile⟩ :=
          outcome_convertFile hdry (hsources.each source List.mem_cons_self) hconvertible
        -- The first conversion changes nothing that the later ones depend on.
        have hwhile : sources.takeWhile middle.isConvertible
            = sources.takeWhile world.tree.isConvertible :=
          takeWhile_congr fun later hlater => hsources.isConvertible_eq hmiddle hlater
        have hreports : middle.reports true sources = world.tree.reports true sources :=
          List.filterMap_congr fun later hlater => by rw [hsources.text?_eq hmiddle hlater]
        obtain ⟨after, told, hafter, hcases⟩ := @ih
          { world with
            tree := middle
            told := world.told ++ [.converted (Path.outputPath source) false] } (hsources.tail hmiddle)
        rw [hwhile] at hafter hcases
        rw [hreports] at hcases
        rw [List.takeWhile_cons, if_pos hconvertible]
        have hpart := hsources.sublist ((List.takeWhile_sublist world.tree.isConvertible).cons_cons source)
        refine ⟨after, told, .cons hpart hmiddle hafter, ?_⟩
        rcases hcases with ⟨hall, hok⟩ | ⟨hstops, failure, herror⟩
        · refine .inl ⟨by rw [hall], ?_⟩
          rw [FileTree.reports_cons htext, convertFiles, outcome_bind_ok hfile, outcome_bind_ok hok]
          rfl
        · refine .inr ⟨by simpa using hstops, failure, ?_⟩
          exact (outcome_bind_ok hfile _).trans (outcome_bind_error herror _)
      · obtain ⟨failure, hfile⟩ := outcome_convertFile_of_not_isConvertible hdry hconvertible
        rw [List.takeWhile_cons, if_neg hconvertible]
        exact ⟨world.tree, world.told, .nil _,
          .inr ⟨(List.cons_ne_nil _ _).symm, failure, outcome_bind_error hfile _⟩⟩

/-- A dry run converts all templates that are text, and changes nothing. -/
theorem outcome_convertFiles_dry (hdry : options.dryRun = true)
    (htexts : ∀ source ∈ sources, ∃ text, world.tree.text? source = some text) :
    ∃ told, outcome (convertFiles options sources) world
      = (.ok (world.tree.reports false sources), { world with told }) := by
  induction sources generalizing world with
  | nil => exact ⟨world.told, rfl⟩
  | cons source sources ih =>
      obtain ⟨⟨text, htext⟩, hlater⟩ := List.forall_mem_cons.mp htexts
      obtain ⟨told, hrest⟩ := @ih
        { world with told := world.told ++ [.converted (Path.outputPath source) true] } hlater
      refine ⟨told, ?_⟩
      rw [FileTree.reports_cons htext, convertFiles,
        outcome_bind_ok (outcome_convertFile_dry hdry htext), outcome_bind_ok hrest]
      rfl

/-! ## Paths -/

theorem outcome_templates (path : Text) :
    world.tree.selection path ≠ []
        ∧ outcome (templates path) world = (.ok (world.tree.selection path), world)
      ∨ world.tree.selection path = []
        ∧ ∃ failure, outcome (templates path) world = (.error failure, world) := by
  have hkind : outcome (liftM (Host.kind? path : StateM World (Option NodeKind))) world
      = (.ok ((world.tree.find? path).map Node.kind), world) := outcome_lift _
  have hbelow : outcome (liftM (Host.filesBelow path : StateM World (List (List Text)))) world
      = (.ok (world.tree.filesBelow path), world) := outcome_lift _
  rw [templates, outcome_bind_ok hkind, FileTree.selection]
  cases hfind : world.tree.find? path with
  | none => exact .inr ⟨rfl, _, rfl⟩
  | some node =>
      cases node with
      | file content =>
          simp only [Option.map_some, Node.kind]
          cases ht : Path.isTemplate path with
          | true => exact .inl ⟨by simp [ht], by simp [ht]⟩
          | false => exact .inr ⟨by simp [ht], .notTemplate path, rfl⟩
      | directory =>
          simp only [Option.map_some, Node.kind]
          rw [outcome_bind_ok hbelow]
          split
          · rename_i hnone
            exact .inr ⟨hnone, _, rfl⟩
          · rename_i hsome
            exact .inl ⟨hsome, rfl⟩

/-! ## Reports -/

section Encoding

variable {m : Type → Type} [Monad m] [LawfulMonad m]

theorem throw_bind {α β : Type} (failure : Failure) (next : α → ExceptT Failure m β) :
    (throw failure >>= next : ExceptT Failure m β) = throw failure := by
  refine ExceptT.ext ?_
  rw [ExceptT.run_bind, ExceptT.run_throw, pure_bind, ExceptT.run_throw]

variable [Host m] {path reason : Text} {report : FileReport} {reports before behind : List FileReport}

/-- Both paths of a report can be encoded. -/
def FileReport.IsEncodable (m : Type → Type) [Monad m] [Host m] (report : FileReport) : Prop :=
  ∀ path ∈ [report.source, report.output], Host.unencodable? path = (pure none : m (Option Text))

theorem checkPath_of_encodable (h : Host.unencodable? path = (pure none : m (Option Text))) :
    (checkPath path : ExceptT Failure m Unit) = pure () := by
  rw [checkPath, h, liftM_pure, pure_bind]

theorem checkPath_of_unencodable (h : Host.unencodable? path = (pure (some reason) : m (Option Text))) :
    (checkPath path : ExceptT Failure m Unit) = throw (.encoding reason) := by
  rw [checkPath, h, liftM_pure, pure_bind]

theorem encode_of_isEncodable (h : report.IsEncodable m) :
    (encode report : ExceptT Failure m Json) = pure report.toJson := by
  have hsource := checkPath_of_encodable (h report.source (by simp))
  have houtput := checkPath_of_encodable (h report.output (by simp))
  rw [encode, hsource, pure_bind, houtput, pure_bind]

theorem encodeAll_of_isEncodable (h : ∀ report ∈ reports, report.IsEncodable m) :
    (encodeAll reports : ExceptT Failure m (List Json)) = pure (reports.map FileReport.toJson) := by
  induction reports with
  | nil => rfl
  | cons report reports ih =>
      obtain ⟨hreport, hreports⟩ := List.forall_mem_cons.mp h
      rw [encodeAll, encode_of_isEncodable hreport, pure_bind, ih hreports, pure_bind, List.map_cons]

/-- The first report that cannot be encoded is where the encoding stops. -/
theorem encodeAll_of_throw {failure : Failure} (hbefore : ∀ earlier ∈ before, earlier.IsEncodable m)
    (h : (encode report : ExceptT Failure m Json) = throw failure) :
    (encodeAll (before ++ report :: behind) : ExceptT Failure m (List Json)) = throw failure := by
  induction before with
  | nil => rw [List.nil_append, encodeAll, h, throw_bind]
  | cons earlier before ih =>
      obtain ⟨hearlier, hlater⟩ := List.forall_mem_cons.mp hbefore
      rw [List.cons_append, encodeAll, encode_of_isEncodable hearlier, pure_bind, ih hlater, throw_bind]

/-- A host that cannot encode a path keeps all reports from being printed. -/
theorem printReports_of_unencodable (hjson : options.json = true)
    (hbefore : ∀ earlier ∈ before, earlier.IsEncodable m)
    (h : Host.unencodable? report.source = (pure (some reason) : m (Option Text))) :
    (printReports options (before ++ report :: behind) : ExceptT Failure m Unit)
      = throw (.encoding reason) := by
  have hencode : (encode report : ExceptT Failure m Json) = throw (.encoding reason) := by
    rw [encode, checkPath_of_unencodable h, throw_bind]
  rw [printReports, if_pos hjson, encodeAll_of_throw hbefore hencode, throw_bind]

end Encoding

/-- What a run with the given options prints on its templates. -/
def printedReports (options : Options) (reports : List FileReport) : Text :=
  if options.json then (Json.array (reports.map FileReport.toJson)).pretty 0 ++ ['\n'] else []

/-- The paths of a tree are text, so that its reports are encoded. -/
theorem outcome_encodeAll (reports : List FileReport) :
    outcome (encodeAll reports) world = (.ok (reports.map FileReport.toJson), world) := by
  rw [encodeAll_of_isEncodable fun report _ path _ => rfl, outcome_pure]

theorem outcome_printReports (options : Options) (reports : List FileReport) :
    outcome (printReports options reports) world
      = (.ok (), { world with printed := world.printed ++ printedReports options reports }) := by
  unfold printReports printedReports
  cases options.json with
  | true =>
      rw [if_pos rfl, outcome_bind_ok (outcome_encodeAll reports)]
      rfl
  | false =>
      rw [if_neg (by decide), if_neg (by decide), List.append_nil]
      rfl

theorem outcome_convertPath_ok {path : Text} {reports : List FileReport} {middle : World}
    (htemplates : outcome (templates path) world = (.ok sources, world))
    (hfiles : outcome (convertFiles options sources) world = (.ok reports, middle)) :
    outcome (convertPath options path) world
      = (.ok (),
          { middle with
            printed := middle.printed ++ printedReports options reports
            told := middle.told ++ [.summary reports.length options.dryRun] }) := by
  unfold convertPath
  rw [outcome_bind_ok htemplates, outcome_bind_ok hfiles,
    outcome_bind_ok (outcome_printReports options reports)]
  rfl

/-! ## Runs -/

/-- The exit code of a run, and the world after it. -/
def World.after (options : Options) (world : World) : Nat × World :=
  (run options : StateM World Nat).run world

theorem after_of_ok {middle : World} (h : outcome (convertAny options) world = (.ok (), middle)) :
    world.after options = (0, middle) := by
  rw [outcome] at h
  rw [World.after, run, StateT.run_bind, h]
  rfl

theorem after_of_error {failure : Failure} {middle : World}
    (h : outcome (convertAny options) world = (.error failure, middle)) :
    world.after options = (1, { middle with told := middle.told ++ [.failed failure] }) := by
  rw [outcome] at h
  rw [World.after, run, StateT.run_bind, h]
  rfl

theorem convertAny_of_path {path : Text} (hpath : options.path = some path) (hstdin : options.stdin = false) :
    (convertAny options : ExceptT Failure (StateM World) Unit) = convertPath options path := by
  simp [convertAny, hpath, hstdin]

/-- The templates that a path stands for, up to the first one that cannot be converted. -/
def FileTree.convertible (tree : FileTree) (path : Text) : List Text :=
  (tree.selection path).takeWhile tree.isConvertible

/-- Whether a path stands for at least one template, and all can be converted. -/
def FileTree.ConvertsAll (tree : FileTree) (path : Text) : Prop :=
  tree.selection path ≠ [] ∧ tree.convertible path = tree.selection path

/-- A run that is not dry converts what can be converted, and succeeds if that is all there is. -/
theorem after_eq {path : Text} (hwf : world.tree.WellFormed) (hpath : options.path = some path)
    (hstdin : options.stdin = false) (hdry : options.dryRun = false) :
    ∃ tree told, FileTree.Converted options.deleteSource world.tree (world.tree.convertible path) tree
      ∧ (world.tree.ConvertsAll path
          ∧ world.after options
            = (0, { world with
              tree
              printed := world.printed
                ++ printedReports options (world.tree.reports true (world.tree.selection path))
              told })
        ∨ ¬ world.tree.ConvertsAll path ∧ world.after options = (1, { world with tree, told })) := by
  have hany := convertAny_of_path hpath hstdin
  rcases @outcome_templates world path with ⟨hsome, htemplates⟩ | ⟨hnone, failure, htemplates⟩
  · obtain ⟨tree, told, hconverted, ⟨hall, hfiles⟩ | ⟨hstops, failure, hfiles⟩⟩ :=
      outcome_convertFiles hdry (hwf.templates_selection path)
    · have hafter := after_of_ok (hany ▸ outcome_convertPath_ok htemplates hfiles)
      exact ⟨tree, _, hconverted, .inl ⟨⟨hsome, hall⟩, hafter⟩⟩
    · have hpath : outcome (convertPath options path) world
          = (.error failure, { world with tree, told }) :=
        (outcome_bind_ok htemplates _).trans (outcome_bind_error hfiles _)
      exact ⟨tree, _, hconverted, .inr ⟨fun h => hstops h.2, after_of_error (hany ▸ hpath)⟩⟩
  · have hconverted : FileTree.Converted options.deleteSource world.tree (world.tree.convertible path)
        world.tree := by
      rw [FileTree.convertible, hnone]
      exact .nil _
    have hpath : outcome (convertPath options path) world = (.error failure, world) :=
      outcome_bind_error htemplates _
    exact ⟨world.tree, _, hconverted, .inr ⟨fun h => h.1 hnone, after_of_error (hany ▸ hpath)⟩⟩

/-- A dry run on a path with templates that are all text reports on them. -/
theorem after_dry_eq {path : Text} (hpath : options.path = some path) (hstdin : options.stdin = false)
    (hdry : options.dryRun = true) (hsome : world.tree.selection path ≠ [])
    (htexts : ∀ source ∈ world.tree.selection path, ∃ text, world.tree.text? source = some text) :
    ∃ told, world.after options
      = (0, { world with
        printed := world.printed
          ++ printedReports options (world.tree.reports false (world.tree.selection path))
        told }) := by
  rcases @outcome_templates world path with ⟨_, htemplates⟩ | ⟨hnone, _⟩
  · obtain ⟨told, hfiles⟩ := outcome_convertFiles_dry hdry htexts
    exact ⟨_, after_of_ok (convertAny_of_path hpath hstdin ▸ outcome_convertPath_ok htemplates hfiles)⟩
  · exact absurd hnone hsome

/-- A directory with two templates, the second of which is no text, beside the working directory. -/
def twoTemplates : FileTree where
  entries :=
    [(["work".toList], .directory), (["d".toList], .directory),
      (["d".toList, "a.haml".toList], .file (Text.toBytes "%p hi".toList)),
      (["d".toList, "b.haml".toList], .file ⟨#[0xff]⟩)]
  workingDirectory := ["work".toList]
  refusal? _ _ := none

theorem selection_twoTemplates :
    twoTemplates.selection "/d".toList = ["/d/a.haml".toList, "/d/b.haml".toList] := by
  have hbelow : twoTemplates.filesBelow "/d".toList = [["a.haml".toList], ["b.haml".toList]] :=
    List.mergeSort_of_pairwise (by decide +kernel)
  have hdirectory : twoTemplates.find? "/d".toList = some .directory := rfl
  rw [FileTree.selection, hdirectory]
  simp only [hbelow]
  decide +kernel

/-- An action that leaves the tree of every world as it is. -/
def KeepsTree {α : Type} (action : ExceptT Failure (StateM World) α) : Prop :=
  ∀ world, (outcome action world).2.tree = world.tree

namespace KeepsTree

variable {α β : Type}

theorem bind {action : ExceptT Failure (StateM World) α} {next : α → ExceptT Failure (StateM World) β}
    (h : KeepsTree action) (h' : ∀ value, KeepsTree (next value)) : KeepsTree (action >>= next) := by
  intro world
  have hfirst := h world
  rcases haction : outcome action world with ⟨failure | value, middle⟩
  · rw [outcome_bind_error haction, ← hfirst, haction]
  · rw [outcome_bind_ok haction, h' value middle, ← hfirst, haction]

theorem convertInput (options : Options) :
    KeepsTree (Command.convertInput options : ExceptT Failure (StateM World) Unit) := by
  refine bind (fun world => rfl) fun bytes => bind (fun world => ?_) fun text world => rfl
  unfold decode
  split <;> rfl

theorem convertFile (hdry : options.dryRun = true) (source : Text) :
    KeepsTree (Command.convertFile options source : ExceptT Failure (StateM World) FileReport) := by
  intro world
  cases htext : world.tree.text? source with
  | none =>
      obtain ⟨failure, hfile⟩ := outcome_convertFile_of_text?_eq_none options htext
      rw [hfile]
  | some text => rw [outcome_convertFile_dry hdry htext]

theorem convertFiles (hdry : options.dryRun = true) (sources : List Text) :
    KeepsTree (Command.convertFiles options sources : ExceptT Failure (StateM World) (List FileReport)) := by
  induction sources with
  | nil => exact fun world => rfl
  | cons source sources ih =>
      exact bind (convertFile hdry source) fun report => bind ih fun reports world => rfl

theorem templates (path : Text) :
    KeepsTree (Command.templates path : ExceptT Failure (StateM World) (List Text)) := by
  intro world
  rcases @outcome_templates world path with ⟨_, htemplates⟩ | ⟨_, failure, htemplates⟩ <;> rw [htemplates]

theorem convertPath (hdry : options.dryRun = true) (path : Text) :
    KeepsTree (Command.convertPath options path : ExceptT Failure (StateM World) Unit) := by
  refine bind (templates path) fun sources => bind (convertFiles hdry sources) fun reports =>
    bind (fun world => ?_) fun _ world => rfl
  rw [outcome_printReports]

theorem convertAny (h : options.dryRun = true ∨ options.stdin = true) :
    KeepsTree (Command.convertAny options : ExceptT Failure (StateM World) Unit) := by
  unfold Command.convertAny
  split
  · exact convertInput options
  · rename_i hstdin
    split
    · exact convertPath (h.resolve_right hstdin) _
    · exact fun world => rfl

end KeepsTree

theorem tree_after (h : KeepsTree (convertAny options)) (world : World) :
    (world.after options).2.tree = world.tree := by
  have hkeeps := h world
  rcases hany : outcome (convertAny options) world with ⟨failure | ⟨⟨⟩⟩, middle⟩
  · rw [after_of_error hany, ← hkeeps, hany]
  · rw [after_of_ok hany, ← hkeeps, hany]

theorem reports_false (tree : FileTree) (sources : List Text) :
    tree.reports false sources
      = (tree.reports true sources).map fun report => { report with written := false } := by
  rw [FileTree.reports, FileTree.reports, List.map_filterMap]
  simp only [Option.map_map]
  rfl

/-- There is one report for each template that is text, in their order. -/
theorem reports_sources {tree : FileTree}
    (htexts : ∀ source ∈ sources, ∃ text, tree.text? source = some text) (written : Bool) :
    (tree.reports written sources).map FileReport.source = sources := by
  induction sources with
  | nil => rfl
  | cons source sources ih =>
      obtain ⟨⟨text, htext⟩, hlater⟩ := List.forall_mem_cons.mp htexts
      rw [FileTree.reports_cons htext, List.map_cons, ih hlater]
      rfl

/-- The same options for a dry run. -/
def Options.dry (options : Options) (deleteSource : Bool) : Options :=
  { options with dryRun := true, deleteSource }

/-- On standard input it makes no difference whether a run is dry. -/
theorem after_dry_of_stdin (hstdin : options.stdin = true) (deleteSource : Bool) (world : World) :
    world.after (options.dry deleteSource) = world.after options := by
  have hany : (convertAny (options.dry deleteSource) : ExceptT Failure (StateM World) Unit)
      = convertAny options := by
    rw [convertAny, convertAny, Options.dry, hstdin]
    rfl
  unfold World.after run
  rw [hany]

theorem path_of_after_eq_zero (hstdin : options.stdin = false) (hcode : (world.after options).1 = 0) :
    ∃ path, options.path = some path := by
  cases hpath : options.path with
  | some path => exact ⟨path, rfl⟩
  | none =>
      have hany : outcome (convertAny options) world = (.error .missingInput, world) := by
        rw [convertAny, hstdin, hpath]
        rfl
      rw [after_of_error hany] at hcode
      cases hcode

end Haml.Command
