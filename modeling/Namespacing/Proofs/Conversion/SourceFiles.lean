import Namespacing.Proofs.Conversion.Runs
import Namespacing.Proofs.FileSystem.Agreement
import Namespacing.Proofs.FileSystem.Descents
set_option autoImplicit false

open Namespacing.Path

namespace Namespacing

namespace FileSystem

/-- Names lead down from a directory to another one and pass no excluded name. -/
def Entered (fs : FileSystem) (excluded : Name → Bool) (place : Location) (dirs : List Name) : Prop :=
  (∀ dir ∈ dirs, excluded dir = false) ∧ fs.get? (dirs.reverse ++ place) = some .directory

/-- Names lead down from the top of a walk to a source file: a regular file whose path can be taken, or a link
whose path leads to a file. -/
def IsSource (fs : FileSystem) (excluded included : Name → Bool) (top : Path) (place : Location)
    (names : List Name) : Prop :=
  ∃ dirs name, names = dirs ++ [name] ∧ fs.Entered excluded place dirs ∧ included name = true ∧
    ((∃ content, fs.get? (names.reverse ++ place) = some (.file content)) ∧ Taken top names ∨
      (∃ target, fs.get? (names.reverse ++ place) = some (.link target)) ∧
        fs.pathIsFile (extend top names) = true)

structure Finds (fs : FileSystem) (excluded included : Name → Bool) (top : Path) (place : Location)
    (files : List (List Name)) : Prop where
  member : ∀ names, names ∈ files ↔ fs.IsSource excluded included top place names
  ordered : (files.map (extend top)).Pairwise Before
  once : (files.map (extend top)).Nodup

/-- A walk stops at the first directory whose path cannot be taken. -/
structure StopsAt (fs : FileSystem) (excluded : Name → Bool) (top : Path) (place : Location)
    (obstacle : Tree.Obstacle) : Prop where
  entered : fs.Entered excluded place obstacle.names
  untaken : ¬ Taken top obstacle.names
  failure : fs.stat (extend top obstacle.names) = .error obstacle.error
  first : ∀ dirs, fs.Entered excluded place dirs → ¬ Taken top dirs →
    dirs = obstacle.names ∨ StepsBefore obstacle.names dirs

section

variable {fs : FileSystem} {excluded included : Name → Bool} {top : Path} {place : Location}

theorem exists_blocked_of_untaken {dirs : List Name} (hentered : fs.Entered excluded place dirs)
    (huntaken : ¬ Taken top dirs) : ∃ error, fs.Blocked excluded top place dirs error := by
  cases hstat : fs.stat (extend top dirs) with
  | ok found => exact absurd (taken_of_stat (isName_of_below hentered.2) hstat) huntaken
  | error error => exact ⟨error, hentered.1, hentered.2, hstat⟩

variable (htop : fs.stat top = .ok (place, .directory))

include htop

theorem blocked_iff {names : List Name} {error : IoError} : fs.Blocked excluded top place names error ↔
    fs.Entered excluded place names ∧ ¬ Taken top names ∧ fs.stat (extend top names) = .error error := by
  constructor
  · rintro ⟨hnames, hget, hstat⟩
    refine ⟨⟨hnames, hget⟩, fun htaken => ?_, hstat⟩
    rw [stat_of_taken htop hget (by simp) htaken] at hstat
    cases hstat
  · rintro ⟨⟨hnames, hget⟩, -, hstat⟩
    exact ⟨hnames, hget, hstat⟩

theorem pathIsFile_iff_taken {names : List Name} {content : Bytes}
    (hget : fs.get? (names.reverse ++ place) = some (.file content)) :
    fs.pathIsFile (extend top names) = true ↔ Taken top names := by
  constructor
  · intro hfile
    rw [pathIsFile] at hfile
    split at hfile
    · rename_i hstat
      exact taken_of_stat (isName_of_below hget) hstat
    · cases hfile
  · intro htaken
    rw [pathIsFile, stat_of_taken htop hget (by simp) htaken]

theorem wanted_iff {names : List Name} : fs.Wanted excluded included top place names ↔
    fs.IsSource excluded included top place names := by
  constructor
  · rintro ⟨dirs, name, entry, rfl, hdirs, hname, hget, hne, hfile⟩
    have hparent : fs.get? (dirs.reverse ++ place) = some .directory := by
      rw [List.reverse_concat, List.cons_append] at hget
      exact (isDirectory_iff fs _).1 (isDirectory_of_get?_cons hget)
    refine ⟨dirs, name, rfl, ⟨hdirs, hparent⟩, hname, ?_⟩
    cases entry with
    | directory => exact absurd rfl hne
    | file content => exact Or.inl ⟨⟨content, hget⟩, (pathIsFile_iff_taken htop hget).1 hfile⟩
    | link target => exact Or.inr ⟨⟨target, hget⟩, hfile⟩
  · rintro ⟨dirs, name, rfl, ⟨hdirs, -⟩, hname, ⟨⟨content, hget⟩, htaken⟩ | ⟨⟨target, hget⟩, hfile⟩⟩
    · exact ⟨dirs, name, _, rfl, hdirs, hname, hget, by simp, (pathIsFile_iff_taken htop hget).2 htaken⟩
    · exact ⟨dirs, name, _, rfl, hdirs, hname, hget, by simp, hfile⟩

theorem finds_of_exact {files : List (List Name)} (hordered : files.Pairwise StepsBefore)
    (hmember : ∀ names, names ∈ files ↔ fs.Wanted excluded included top place names) :
    fs.Finds excluded included top place files := by
  have hplain : ∀ names ∈ files, ∀ name ∈ names, '/' ∉ name ∧ isIdle name = false := by
    intro names hnames
    obtain ⟨-, -, entry, -, -, -, hget, -⟩ := (hmember names).1 hnames
    exact plain_of_isName (isName_of_below hget)
  have hpaths : (files.map (extend top)).Pairwise Before :=
    List.pairwise_map.2 (hordered.imp_of_mem fun ha hb => before_extend (hplain _ ha) (hplain _ hb))
  have honce : (files.map (extend top)).Nodup := hpaths.imp fun hbefore heq => hbefore.ne (congrArg steps heq)
  exact ⟨fun names => (hmember names).trans (wanted_iff htop), hpaths, honce⟩

end

section

variable {fs other : FileSystem} {excluded included : Name → Bool}

theorem Agrees.files (h : Agrees fs other) (top : Path) :
    (other.tree top).files excluded included = (fs.tree top).files excluded included := by
  by_cases hdirectory : ∃ place, fs.stat top = .ok (place, .directory)
  · obtain ⟨place, htop⟩ := hdirectory
    have hexact := @exact_files other excluded included top place ((h.stat top).trans htop)
    have hwanted : ∀ names, other.Wanted excluded included top place names ↔
        fs.Wanted excluded included top place names := by
      simp [Wanted, h.entry, pathIsFile, h.stat]
    have hblocked : ∀ names error, other.Blocked excluded top place names error ↔
        fs.Blocked excluded top place names error := by
      simp [Blocked, h.entry, h.stat]
    refine (hexact.congr hwanted hblocked).eq (exact_files htop) fun names error error' hb hb' => ?_
    exact Except.error.inj (hb.2.2.symm.trans hb'.2.2)
  · have hnone : ∀ place, fs.stat top ≠ .ok (place, .directory) := fun place hplace => hdirectory ⟨place, hplace⟩
    rw [files_of_no_directory hnone, files_of_no_directory fun place => by rw [h.stat]; exact hnone place, h.stat]

end

end FileSystem

open FileSystem

/-- The walk below a directory answers with the source files if the path of every directory that it enters can be
taken, and otherwise stops at the first directory whose path cannot. The order in which directories hold their entries does
not matter, and nothing changes in a session that walks. -/
theorem sourceFiles_exact (settings : Settings) (included : Name → Bool) (fs : FileSystem) (top : Path) :
    (∀ place, fs.stat top = .ok (place, .directory) →
      ((∀ dirs, fs.Entered settings.excludes place dirs → Taken top dirs) →
        ∃ files, (fs.tree top).files settings.excludes included = .ok files ∧
          fs.Finds settings.excludes included top place files) ∧
      ∀ dirs, fs.Entered settings.excludes place dirs → ¬ Taken top dirs →
        ∃ obstacle, (fs.tree top).files settings.excludes included = .error obstacle ∧
          fs.StopsAt settings.excludes top place obstacle) ∧
    ((∀ place, fs.stat top ≠ .ok (place, .directory)) →
      ∃ error, (fs.tree top).files settings.excludes included = .error ⟨[], error⟩) ∧
    (∀ other, fs.Agrees other →
      (other.tree top).files settings.excludes included = (fs.tree top).files settings.excludes included) ∧
    ∀ progress, (sourceFiles settings top : ExceptT Fault SessionM _).run ⟨fs, progress⟩ =
      (match (fs.tree top).files settings.excludes settings.includes with
        | .ok files => .ok (files.map SourceFile.mk)
        | .error obstacle => .error (obstacle.fault top), ⟨fs, progress⟩) := by
  refine ⟨fun place htop => ?_, fun hnone => ⟨_, files_of_no_directory hnone⟩, fun other hagrees => hagrees.files top,
    fun progress => ?_⟩
  · have hexact := @exact_files fs settings.excludes included top place htop
    cases hfiles : (fs.tree top).files settings.excludes included with
    | ok files =>
      rw [hfiles] at hexact
      obtain ⟨hordered, hmember, hfree⟩ := hexact
      refine ⟨fun _ => ⟨files, rfl, finds_of_exact htop hordered hmember⟩, fun dirs hdirs huntaken => ?_⟩
      obtain ⟨error, hblocked⟩ := exists_blocked_of_untaken hdirs huntaken
      exact absurd hblocked (hfree dirs error)
    | error obstacle =>
      rw [hfiles] at hexact
      obtain ⟨hblocked, hfirst⟩ := hexact
      obtain ⟨hentered, huntaken, hfailure⟩ := (blocked_iff htop).1 hblocked
      refine ⟨fun htaken => absurd (htaken _ hentered) huntaken, fun _ _ _ => ⟨obstacle, rfl, ?_⟩⟩
      refine ⟨hentered, huntaken, hfailure, fun dirs hdirs huntaken => ?_⟩
      obtain ⟨error, hblocked⟩ := exists_blocked_of_untaken hdirs huntaken
      exact hfirst dirs error hblocked
  · rw [run_sourceFiles, Settings.filesIn]
    cases (fs.tree top).files settings.excludes settings.includes <;> rfl

def besideDisk (entries : List (Name × Entry)) : FileSystem :=
  entries.foldl (fun fs entry => fs.put [entry.1, "s".toList] entry.2)
    (((FileSystem.empty.put ["s".toList] .directory).put ["a".toList, "s".toList] .directory).put
      ["x.php".toList, "a".toList, "s".toList] (.file []))

def besideEntries : List (Name × Entry) :=
  [("a.php".toList, .file []), ("l.php".toList, .link "a.php".toList)]

theorem eq_nil_of_get?_empty {place : Location} {entry : Entry} (h : FileSystem.empty.get? place = some entry) :
    place = [] := by
  cases hreverse : place.reverse with
  | nil => exact List.reverse_eq_nil_iff.1 hreverse
  | cons name rest =>
    rw [get?, node?, hreverse] at h
    cases h

theorem directories_besideDisk {place : Location}
    (h : (besideDisk besideEntries).get? place = some .directory) :
    place = [] ∨ place = ["s".toList] ∨ place = ["a".toList, "s".toList] := by
  have hfile : (besideDisk besideEntries).get? ["a.php".toList, "s".toList] = some (.file []) := by cbv
  have hlink : (besideDisk besideEntries).get? ["l.php".toList, "s".toList] = some (.link "a.php".toList) := by cbv
  have hinner : (besideDisk besideEntries).get? ["x.php".toList, "a".toList, "s".toList] = some (.file []) := by cbv
  have hplaces : ∀ other entry, (besideDisk besideEntries).get? other = some entry → entry ≠ .directory →
      place ≠ other := by
    rintro other entry hother hne rfl
    exact hne (Option.some.inj (hother.symm.trans h))
  by_cases htop : place = ["s".toList]
  · exact Or.inr (Or.inl htop)
  by_cases hbelow : place = ["a".toList, "s".toList]
  · exact Or.inr (Or.inr hbelow)
  rw [besideDisk, besideEntries, List.foldl_cons, List.foldl_cons, List.foldl_nil,
    get?_put_of_ne (hplaces _ _ hlink (by decide)), get?_put_of_ne (hplaces _ _ hfile (by decide)),
    get?_put_of_ne (hplaces _ _ hinner (by decide)), get?_put_of_ne hbelow, get?_put_of_ne htop] at h
  exact Or.inl (eq_nil_of_get?_empty h)

/-- In whichever order they are held, what lies in a directory comes before a file beside it whose name starts
alike. -/
theorem sourceFiles_exact_beside :
    (besideDisk besideEntries).stat "s".toList = .ok (["s".toList], .directory) ∧
    (∀ dirs, (besideDisk besideEntries).Entered Settings.default.excludes ["s".toList] dirs →
      Taken "s".toList dirs) ∧
    (besideDisk besideEntries).Agrees (besideDisk besideEntries.reverse) ∧
    ((besideDisk besideEntries.reverse).tree "s".toList).files Settings.default.excludes
        (".php".toList.isSuffixOf ·) =
      .ok [["a".toList, "x.php".toList], ["a.php".toList], ["l.php".toList]] ∧
    (besideDisk besideEntries).Finds Settings.default.excludes (".php".toList.isSuffixOf ·) "s".toList
      ["s".toList] [["a".toList, "x.php".toList], ["a.php".toList], ["l.php".toList]] := by
  have hstat : (besideDisk besideEntries).stat "s".toList = .ok (["s".toList], .directory) := by cbv
  have hagrees : (besideDisk besideEntries).Agrees (besideDisk besideEntries.reverse) := by
    refine ⟨rfl, fun place => ?_⟩
    by_cases hfile : place = ["a.php".toList, "s".toList]
    · rw [hfile]
      cbv
    by_cases hlink : place = ["l.php".toList, "s".toList]
    · rw [hlink]
      cbv
    simp only [besideDisk, besideEntries, List.reverse_cons, List.reverse_nil, List.nil_append, List.cons_append,
      List.foldl_cons, List.foldl_nil, get?_put_of_ne hfile, get?_put_of_ne hlink]
  have htaken : ∀ dirs, (besideDisk besideEntries).Entered Settings.default.excludes ["s".toList] dirs →
      Taken "s".toList dirs := by
    rintro dirs ⟨-, hget⟩
    rcases directories_besideDisk hget with hplace | hplace | hplace
    · cases (List.append_eq_nil_iff.1 hplace).2
    · obtain rfl := List.reverse_eq_nil_iff.1 (List.append_cancel_right (hplace.trans (List.nil_append _).symm))
      exact ⟨⟨by decide, by decide, by decide⟩, by decide⟩
    · have hdirs : dirs.reverse = ["a".toList] := List.append_cancel_right hplace
      obtain rfl : dirs = ["a".toList] := List.reverse_eq_iff.1 hdirs
      exact ⟨⟨by decide, by decide, by decide⟩, by decide⟩
  have hfiles : ((besideDisk besideEntries).tree "s".toList).files Settings.default.excludes
      (".php".toList.isSuffixOf ·) = .ok [["a".toList, "x.php".toList], ["a.php".toList], ["l.php".toList]] := by
    cbv
  obtain ⟨hwalk, -, hother, -⟩ := sourceFiles_exact Settings.default (".php".toList.isSuffixOf ·)
    (besideDisk besideEntries) "s".toList
  obtain ⟨files, hfound, hfinds⟩ := (hwalk _ hstat).1 htaken
  obtain rfl := Except.ok.inj (hfiles.symm.trans hfound)
  exact ⟨hstat, htaken, hagrees, (hother _ hagrees).trans hfiles, hfinds⟩

def dotted (n : Nat) (path : Path) : Path :=
  (List.replicate n ['.', '/']).flatten ++ path

theorem dotted_succ (n : Nat) (path : Path) : dotted (n + 1) path = ['.'] ++ '/' :: dotted n path := by
  simp [dotted, List.replicate_succ]

theorem steps_dotted (n : Nat) (path : Path) : steps (dotted n path) = steps path := by
  induction n with
  | zero => rfl
  | succ n ih =>
    rw [dotted_succ, steps_append, ih]
    rfl

theorem utf8Size_dotted (n : Nat) (path : Path) : Text.utf8Size (dotted n path) = 2 * n + Text.utf8Size path := by
  induction n with
  | zero => simp [dotted]
  | succ n ih =>
    have hdot : Text.utf8Size ['.'] = 1 := by decide
    have hslash : '/'.utf8Size = 1 := by decide
    rw [dotted_succ, Text.utf8Size_append, hdot, Text.utf8Size_cons, hslash, ih]
    omega

theorem nul_not_mem_dotted {n : Nat} {path : Path} (h : '\x00' ∉ path) : '\x00' ∉ dotted n path := by
  induction n with
  | zero => exact h
  | succ n ih => simp [dotted_succ, ih]

theorem isAbsolute_dotted {n : Nat} {path : Path} (h : isAbsolute path = false) :
    isAbsolute (dotted n path) = false := by
  cases n with
  | zero => exact h
  | succ n => simp [dotted_succ, isAbsolute]

theorem stat_dotted {fs : FileSystem} {n : Nat} {path : Path} {place : Location}
    (h : fs.stat path = .ok (place, .directory)) (habsolute : isAbsolute path = false)
    (hsize : 2 * n + Text.utf8Size path ≤ maxPathSize) :
    fs.stat (dotted n path) = .ok (place, .directory) := by
  obtain ⟨hpath, k, hreaches⟩ := stat_directory_iff.1 h
  rw [← steps_dotted n, habsolute, ← isAbsolute_dotted (n := n) habsolute] at hreaches
  refine stat_directory_iff.2 ⟨⟨nul_not_mem_dotted hpath.nul, ?_, ?_⟩, k, hreaches⟩
  · simp [dotted, hpath.nonempty]
  · rwa [utf8Size_dotted]

theorem utf8Size_join_le (base : Path) {path : Path} (h : isAbsolute path = false) :
    Text.utf8Size base + Text.utf8Size path ≤ Text.utf8Size (join base path) := by
  unfold join
  rw [if_neg (by simp [h])]
  split <;> simp [Text.utf8Size_append]

theorem exists_error_of_size {fs : FileSystem} {path : Path} (h : maxPathSize < Text.utf8Size path) :
    ∃ error, fs.stat path = .error error := by
  unfold stat
  cases hlocate : fs.locate .target path with
  | error error => exact ⟨error, rfl⟩
  | ok spot => exact absurd (followable_of_locate hlocate).1.size (Nat.not_le.2 h)

def loneDisk : FileSystem :=
  (FileSystem.empty.put [['s']] .directory).put ["A.php".toList, ['s']] (.file (Text.toUtf8 "<?php\n".toList))

/-- Behind the longest path that leads to a directory, a file that matches is not found, and a directory stops
the walk. -/
theorem sourceFiles_misses_long_path :
    loneDisk.stat (dotted 2047 ['s']) = .ok ([['s']], .directory) ∧
    loneDisk.get? ["A.php".toList, ['s']] = some (.file (Text.toUtf8 "<?php\n".toList)) ∧
    Settings.default.includes "A.php".toList = true ∧
    (sourceFiles Settings.default (dotted 2047 ['s']) : ExceptT Fault SessionM _).run ⟨loneDisk, []⟩ =
      (.ok [], ⟨loneDisk, []⟩) ∧
    ∃ fault, (sourceFiles Settings.default (dotted 2047 ['s']) : ExceptT Fault SessionM _).run
        ⟨loneDisk.put [['d'], ['s']] .directory, []⟩ =
      (.error fault, ⟨loneDisk.put [['d'], ['s']] .directory, []⟩) := by
  have hsize : 2 * 2047 + Text.utf8Size ['s'] ≤ maxPathSize := by decide
  have hlone : loneDisk.stat (dotted 2047 ['s']) = .ok ([['s']], .directory) :=
    stat_dotted (by cbv) rfl hsize
  have hmore : (loneDisk.put [['d'], ['s']] .directory).stat (dotted 2047 ['s']) =
      .ok ([['s']], .directory) := stat_dotted (by cbv) rfl hsize
  have hlong : ∀ (fs : FileSystem) (name : Name), isAbsolute name = false → 0 < Text.utf8Size name →
      ∃ error, fs.stat (join (dotted 2047 ['s']) name) = .error error := by
    intro fs name hname hpos
    have hle := utf8Size_join_le (dotted 2047 ['s']) hname
    rw [utf8Size_dotted] at hle
    have htop : 2 * 2047 + Text.utf8Size ['s'] = maxPathSize := by decide
    exact exists_error_of_size (by omega)
  have hnode : loneDisk.node? [['s']] =
      some (.directory [("A.php".toList, .file (Text.toUtf8 "<?php\n".toList))]) := by cbv
  have hnode' : (loneDisk.put [['d'], ['s']] .directory).node? [['s']] =
      some (.directory [(['d'], .directory []), ("A.php".toList, .file (Text.toUtf8 "<?php\n".toList))]) := by
    cbv
  have hmissed : ∀ fs : FileSystem, fs.pathIsFile (join (dotted 2047 ['s']) "A.php".toList) = false := by
    intro fs
    obtain ⟨error, hstat⟩ := hlong fs "A.php".toList rfl (by decide)
    rw [pathIsFile, hstat]
  have hfiles : (loneDisk.tree (dotted 2047 ['s'])).files Settings.default.excludes
      Settings.default.includes = .ok [] := by
    rw [files_of_directory hlone hnode]
    simp only [treesOf, treeOf, hmissed, Tree.filesOfEach, Tree.filesAt, Bool.false_and]
    simp [Tree.Outcome.inOrder, Tree.Outcome.concat]
  obtain ⟨error, hstat⟩ := hlong (loneDisk.put [['d'], ['s']] .directory) ['d'] rfl (by decide)
  have hfiles' : ((loneDisk.put [['d'], ['s']] .directory).tree (dotted 2047 ['s'])).files
      Settings.default.excludes Settings.default.includes = .error ⟨[['d']], error⟩ := by
    have hexcluded : Settings.default.excludes ['d'] = false := by decide
    rw [files_of_directory hmore hnode']
    simp only [treesOf, treeOf, hmissed, hstat, hexcluded, Tree.filesOfEach, Tree.filesAt, Bool.false_and]
    simp [Tree.Outcome.inOrder, Tree.Outcome.concat, List.mergeSort, Text.le]
  refine ⟨hlone, by cbv, by decide +kernel, ?_, Tree.Obstacle.fault (dotted 2047 ['s']) ⟨[['d']], error⟩, ?_⟩
  · rw [run_sourceFiles, Settings.filesIn, hfiles]
    rfl
  · rw [run_sourceFiles, Settings.filesIn, hfiles']

end Namespacing
