import Haml.Path
import Mathlib.Data.List.Basic

/-!
# Paths of templates

A path is cut into pieces at its slashes, and names that are joined are cut apart again. The path of a
template ends in a name with the extension of templates; its page goes to the same directory, under the
same stem.
-/

namespace Haml.Path

/-! ## Pieces -/

theorem pieces_eq_splitOn (path : Text) : pieces path = path.splitOn '/' := by
  induction path with
  | nil => rfl
  | cons c cs ih =>
      rw [pieces, ih, List.splitOn_cons_eq_if_modifyHead]
      by_cases hc : c = '/'
      · simp [hc]
      · obtain ⟨piece, more, heq⟩ := List.exists_cons_of_ne_nil (List.splitOn_ne_nil '/' cs)
        simp [hc, heq, Text.consHead]

theorem pieces_ne_nil (path : Text) : pieces path ≠ [] := by
  rw [pieces_eq_splitOn]
  exact List.splitOn_ne_nil '/' path

theorem exists_pieces (path : Text) : ∃ above name, pieces path = above ++ [name] :=
  ⟨_, _, (List.dropLast_append_getLast (pieces_ne_nil path)).symm⟩

theorem pieces_join {names : List Text} (h : ∀ name ∈ names, '/' ∉ name) (hne : names ≠ []) :
    pieces (Text.join ['/'] names) = names := by
  rw [pieces_eq_splitOn]
  exact List.splitOn_intercalate '/' h hne

theorem pieces_append_cons (directory rest : Text) :
    pieces (directory ++ '/' :: rest) = pieces directory ++ pieces rest := by
  simp only [pieces_eq_splitOn, List.splitOn_append_cons_self]

theorem slash_notMem_of_mem_pieces {path piece : Text} (h : piece ∈ pieces path) : '/' ∉ piece := by
  induction path generalizing piece with
  | nil => simp_all [pieces]
  | cons c cs ih =>
      obtain ⟨first, more, heq⟩ := List.exists_cons_of_ne_nil (pieces_ne_nil cs)
      rw [heq] at ih
      obtain ⟨hfirst, hmore⟩ := List.forall_mem_cons.mp fun piece => @ih piece
      rw [pieces, heq] at h
      split at h
      · rcases List.mem_cons.mp h with rfl | h
        · exact List.not_mem_nil
        · exact ih h
      · rename_i hc
        rcases List.mem_cons.mp h with rfl | h
        · simp [Ne.symm hc, hfirst]
        · exact hmore piece h

theorem slash_notMem_of_pieces {path name : Text} {above : List Text} (h : pieces path = above ++ [name]) :
    '/' ∉ name :=
  slash_notMem_of_mem_pieces (h ▸ List.mem_append_right above List.mem_cons_self)

theorem ne_nil_of_pieces {path name : Text} {above : List Text} (h : pieces path = above ++ [name])
    (hname : name ≠ []) : path ≠ [] := by
  rintro rfl
  obtain ⟨_, hlast⟩ := List.append_inj' (show [] ++ [[]] = above ++ [name] from h) rfl
  cases hlast
  exact hname rfl

/-- A path starts with a slash if its first piece is empty and another one follows. -/
theorem head?_eq_slash_iff {path name : Text} {above : List Text} (h : pieces path = above ++ [name]) :
    path.head? = some '/' ↔ above.head? = some [] := by
  cases path with
  | nil =>
      obtain ⟨rfl, _⟩ := List.append_inj' (show [] ++ [[]] = above ++ [name] from h) rfl
      simp
  | cons c cs =>
      obtain ⟨first, more, heq⟩ := List.exists_cons_of_ne_nil (pieces_ne_nil cs)
      rw [pieces, heq] at h
      cases above with
      | nil =>
          split at h
          · cases h
          · rename_i hc
            simp [hc]
      | cons piece pieces =>
          rw [List.cons_append] at h
          split at h
          · rename_i hc
            simp [hc, ← (List.cons.inj h).1]
          · rename_i hc
            simp [hc, ← (List.cons.inj h).1]

/-- A path below a directory has the pieces of the directory, but for an empty last one, and the names. -/
theorem pieces_below (directory : Text) {relative : List Text} (h : ∀ name ∈ relative, '/' ∉ name)
    (hne : relative ≠ []) :
    ∃ above, pieces (below directory relative) = above ++ relative
      ∧ (pieces directory = above ∨ pieces directory = above ++ [[]]) := by
  unfold below
  split
  · rename_i hlast
    obtain ⟨start, rfl⟩ := List.getLast?_eq_some_iff.mp hlast
    refine ⟨pieces start, ?_, .inr (pieces_append_cons start [])⟩
    rw [List.append_assoc, List.singleton_append, pieces_append_cons, pieces_join h hne]
  · refine ⟨pieces directory, ?_, .inl rfl⟩
    rw [pieces_append_cons, pieces_join h hne]

/-! ## Names -/

/-- A piece that names something in a directory. -/
structure IsName (piece : Text) : Prop where
  slash_notMem : '/' ∉ piece
  not_isIdle : isIdle piece = false
  ne_dots : piece ≠ ['.', '.']

instance (piece : Text) : Decidable (IsName piece) :=
  decidable_of_iff ('/' ∉ piece ∧ isIdle piece = false ∧ piece ≠ ['.', '.'])
    ⟨fun ⟨hslash, hidle, hdots⟩ => ⟨hslash, hidle, hdots⟩,
      fun ⟨hslash, hidle, hdots⟩ => ⟨hslash, hidle, hdots⟩⟩

variable {path name stem : Text} {above : List Text}

theorem IsName.ne_nil (h : IsName name) : name ≠ [] := by
  rintro rfl
  exact absurd h.not_isIdle (by decide)

theorem fileName?_of_pieces (h : pieces path = above ++ [name]) (hname : IsName name) :
    namedPieces path = above ++ [name] ∧ fileName? path = some name := by
  have hnamed : namedPieces path = above ++ [name] := by
    simp [namedPieces, h, hname.not_isIdle]
  refine ⟨hnamed, ?_⟩
  rw [fileName?, hnamed, List.getLast?_append]
  simp [hname.ne_dots]

theorem of_splitExtension? {extension : Text} (h : splitExtension? name = some (stem, extension)) :
    name = stem ++ '.' :: extension ∧ stem ≠ [] := by
  unfold splitExtension? at h
  split at h
  · rename_i dot c before hdrop
    obtain ⟨rfl, rfl⟩ := Prod.mk.inj (Option.some.inj h)
    obtain rfl : dot = '.' := by
      have hdot := List.head?_dropWhile_not (· ≠ '.') name.reverse
      rw [hdrop] at hdot
      simpa using hdot
    have hname : name.reverse = name.reverse.takeWhile (· ≠ '.') ++ '.' :: c :: before := by
      rw [← hdrop, List.takeWhile_append_dropWhile]
    refine ⟨?_, by simp⟩
    rw [← List.reverse_reverse name]
    conv_lhs => rw [hname]
    simp
  · cases h

theorem isName_append (h : '/' ∉ stem) {extension : Text} (hextension : '/' ∉ extension)
    (hlength : 1 < extension.length) : IsName (stem ++ '.' :: extension) := by
  have hlong : 2 < (stem ++ '.' :: extension).length := by
    rw [List.length_append, List.length_cons]
    omega
  refine ⟨by simp [h, hextension], ?_, ?_⟩
  · rw [isIdle, Bool.or_eq_false_iff, decide_eq_false_iff_not, decide_eq_false_iff_not]
    constructor <;> intro heq <;> rw [heq] at hlong <;> simp at hlong
  · intro heq
    rw [heq] at hlong
    simp at hlong

/-! ## Templates and their pages -/

/--
The name of a template is a stem with the extension of templates. Its page has the same stem in the same
directory; only the stem that is a dot makes the path of the page one of a directory.
-/
theorem outputPath_of_isTemplate (h : pieces path = above ++ [name]) (hname : IsName name)
    (ht : isTemplate path = true) :
    ∃ stem, name = stem ++ ".haml".toList
      ∧ (IsName (stem ++ ".erb".toList)
          ∧ pieces (outputPath path) = above ++ [stem ++ ".erb".toList]
        ∨ pieces (outputPath path) = above ++ [['.', '.']]) := by
  obtain ⟨hnamed, hfile⟩ := fileName?_of_pieces h hname
  have hextension : (splitExtension? name).map Prod.snd = some "haml".toList := by
    rw [isTemplate, extension?, hfile] at ht
    exact of_decide_eq_true ht
  obtain ⟨⟨stem, _⟩, hsplit, rfl⟩ := Option.map_eq_some_iff.mp hextension
  obtain ⟨hstem, _⟩ := of_splitExtension? hsplit
  have habove : ∀ piece ∈ above, '/' ∉ piece := fun piece hpiece =>
    slash_notMem_of_mem_pieces (h ▸ List.mem_append_left _ hpiece)
  have hreplaced : ∀ last : Text, '/' ∉ last →
      pieces (Text.join ['/'] ((above ++ [name]).dropLast ++ [last])) = above ++ [last] := by
    intro last hlast
    rw [List.dropLast_concat]
    exact pieces_join (List.forall_mem_append.mpr ⟨habove, by simpa using hlast⟩) (by simp)
  refine ⟨stem, hstem, ?_⟩
  simp only [outputPath, withExtension, hfile, hsplit, hnamed]
  split
  · exact .inr (hreplaced _ (by decide))
  · have hpage : IsName (stem ++ ".erb".toList) :=
      isName_append (fun hmem => hname.slash_notMem (hstem ▸ List.mem_append_left _ hmem)) (by decide)
        (by decide)
    exact .inl ⟨hpage, hreplaced _ hpage.slash_notMem⟩

end Haml.Path
