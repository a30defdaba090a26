import Namespacing.Proofs.Conversion.Preparation
set_option autoImplicit false

open Namespacing.Path Namespacing.FileSystem

namespace Namespacing

theorem isName_of_isIdentifier {name : Text} (h : Text.isIdentifier name = true) :
    isName name = true := by
  cases name with
  | nil => cases h
  | cons c rest =>
    simp only [Text.isIdentifier, Bool.and_eq_true, List.all_eq_true] at h
    have hword : ∀ d ∈ c :: rest, d ≠ '/' ∧ d ≠ '.' := by
      intro d hd
      constructor
      all_goals
        rintro rfl
        rcases List.mem_cons.1 hd with rfl | hd
        · exact absurd h.1 (by decide)
        · exact absurd (h.2 _ hd) (by decide)
    have hdot : ∀ more, c :: rest ≠ '.' :: more := by
      intro more heq
      exact (hword c List.mem_cons_self).2 (List.cons.inj heq).1
    refine isName_of_isDown ⟨?_, hdot _⟩ fun hmem => (hword '/' hmem).1 rfl
    rw [isIdle, Bool.or_eq_false_iff]
    exact ⟨rfl, beq_eq_false_iff_ne.2 (hdot _)⟩

namespace Settings

/-- What a check that succeeds has found. -/
structure Usable (settings : Settings) : Prop where
  root : isRoot settings.root = true
  segment : Text.isIdentifier settings.functionsSegment = true
  manifest : isManifestFile settings.manifestFile = true

theorem usable_of_check {settings : Settings} (h : settings.check = .ok ()) : settings.Usable := by
  have hnone : settings.defect? = none := by
    rw [check] at h
    split at h
    · cases h
    · assumption
  unfold defect? at hnone
  split at hnone
  · cases hnone
  · split at hnone
    · cases hnone
    · split at hnone
      · cases hnone
      · split at hnone
        · cases hnone
        · exact ⟨by simp_all, by simp_all, by simp_all⟩

end Settings

namespace Workspace

variable {settings : Settings} (source target : Path)

theorem isDown_treeName : IsDown treeName := ⟨by decide, by decide⟩

theorem exists_segments_target :
    ∃ before, segments (ofRoots settings source target).target = before ++ [treeName] := by
  obtain ⟨before, hsegments, -⟩ := exists_segments_join target (show '/' ∉ treeName by decide)
  exact ⟨before, hsegments⟩

variable (h : settings.Usable)

include h

theorem isName_of_mem_segments {name : Name} (hname : name ∈ settings.toNamespace.segments) :
    isName name = true :=
  isName_of_isIdentifier (List.all_eq_true.1 h.root name hname)

theorem isDown_of_mem_segments {name : Name} (hname : name ∈ settings.toNamespace.segments) :
    '/' ∉ name ∧ isIdle name = false := by
  obtain ⟨hdown, hslash⟩ := isDown_of_isName (isName_of_mem_segments h hname)
  exact ⟨hslash, hdown.1⟩

theorem isAbsolute_directory : isAbsolute settings.toNamespace.directory = false :=
  isAbsolute_extend (fun _ => isDown_of_mem_segments h) []

theorem exists_last_segment :
    ∃ init last, settings.toNamespace.segments = init ++ [last] ∧ init <+: settings.toNamespace.segments ∧
      IsDown last := by
  rcases List.eq_nil_or_concat settings.toNamespace.segments with hnil | ⟨init, last, hlast⟩
  · exact absurd hnil (Text.splitOn_ne_nil _ _)
  · have hmem : last ∈ settings.toNamespace.segments := by simp [hlast]
    rw [List.concat_eq_append] at hlast
    exact ⟨init, last, hlast, ⟨[last], hlast.symm⟩, (isDown_of_isName (isName_of_mem_segments h hmem)).1⟩

theorem leads_classDirectory :
    Leads (isAbsolute (ofRoots settings source target).target)
      (steps (ofRoots settings source target).target)
      (ofRoots settings source target).classDirectory settings.toNamespace.segments := by
  have habs := isAbsolute_directory h
  refine ⟨isAbsolute_join _ habs, ?_⟩
  have hsteps : steps settings.toNamespace.directory = steps [] ++ settings.toNamespace.segments :=
    steps_extend (fun _ => isDown_of_mem_segments h) []
  exact (steps_join _ habs).trans (congrArg _ hsteps)

theorem exists_segments_classDirectory :
    ∃ before x, segments (ofRoots settings source target).classDirectory = before ++ [x] ∧
      isIdle x = false := by
  obtain ⟨before, hbefore⟩ :=
    exists_segments_join_path (ofRoots settings source target).target (isAbsolute_directory h)
  rcases List.eq_nil_or_concat settings.toNamespace.segments with hnil | ⟨init, last, hlast⟩
  · exact absurd hnil (Text.splitOn_ne_nil _ _)
  · have hmem : last ∈ settings.toNamespace.segments := by simp [hlast]
    obtain ⟨hslash, hidle⟩ := isDown_of_mem_segments h hmem
    obtain ⟨before', hsegments, -⟩ := exists_segments_join (extend [] init) hslash
    have hdirectory : settings.toNamespace.directory = join (extend [] init) last := by
      change extend [] settings.toNamespace.segments = _
      rw [hlast, List.concat_eq_append, extend, List.foldl_append]
      rfl
    refine ⟨before ++ before', last, ?_, hidle⟩
    rw [List.append_assoc, ← hsegments, ← hdirectory]
    exact hbefore

theorem exists_classDirectory_eq :
    ∃ rest, (ofRoots settings source target).classDirectory =
      (ofRoots settings source target).target ++ rest := by
  obtain ⟨before, hbefore⟩ := @exists_segments_target settings source target
  exact ⟨_, join_eq_append hbefore isDown_treeName.1 (isAbsolute_directory h)⟩

theorem leads_functionDirectory :
    Leads (isAbsolute (ofRoots settings source target).target)
      (steps (ofRoots settings source target).target)
      (ofRoots settings source target).functionDirectory
      (settings.toNamespace.segments ++ [settings.functionsSegment]) := by
  obtain ⟨hdown, hslash⟩ := isDown_of_isName (isName_of_isIdentifier h.segment)
  obtain ⟨habs, hsteps⟩ := leads_classDirectory source target h
  have hsegment := isAbsolute_of_not_mem hslash
  refine ⟨(isAbsolute_join _ hsegment).trans habs, ?_⟩
  refine (steps_join _ hsegment).trans ?_
  rw [hsteps, steps_of_not_mem hslash hdown.1, List.append_assoc]

theorem exists_segments_functionDirectory :
    ∃ before, segments (ofRoots settings source target).functionDirectory =
      before ++ [settings.functionsSegment] := by
  obtain ⟨hdown, hslash⟩ := isDown_of_isName (isName_of_isIdentifier h.segment)
  obtain ⟨before, hsegments, -⟩ :=
    exists_segments_join (ofRoots settings source target).classDirectory hslash
  exact ⟨before, hsegments⟩

end Workspace

theorem Path.parent?_join {base : Path} {before : List Text} {x name : Text}
    (h : segments base = before ++ [x]) (hx : isIdle x = false) (hname : isName name = true) :
    parent? (join base name) = some base := by
  obtain ⟨hdown, hslash⟩ := isDown_of_isName hname
  rw [join_eq_append h hx (isAbsolute_of_not_mem hslash), parent?_append h hx hslash hdown.1]

section

variable {fs : FileSystem} {k : Nat} {p parent : Location} {name : Name}

theorem FileSystem.Follows.eq_nil_of_file {x : Text} {rest : List Text} (hx : isIdle x = false)
    (hrest : (rest.filter fun s => !isIdle s) = [])
    (h : Follows fs .file k p (x :: rest) (.named parent name false)) : rest = [] ∧ IsDown x := by
  have hslash : ∀ {a b : Location} {y z : Name}, Spot.named a y (!rest.isEmpty) = .named b z false →
      rest = [] := by
    intro a b y z heq
    simpa using (Spot.named.inj heq).2.2
  generalize hspot : Spot.named parent name false = spot at h
  cases h with
  | idle hidle =>
    rw [hx] at hidle
    cases hidle
  | up tail =>
    rw [tail.here_of_idle hrest] at hspot
    cases hspot
  | before hdown => exact ⟨hslash hspot.symm, hdown⟩
  | stop hdown => exact ⟨hslash hspot.symm, hdown⟩
  | enter _ _ _ _ tail =>
    rw [tail.here_of_idle hrest] at hspot
    cases hspot
  | link hdown _ hstep _ tail =>
    refine ⟨?_, hdown⟩
    cases hall : rest.all List.isEmpty with
    | false =>
      obtain ⟨_, _, -, hlast⟩ := tail.split hall
      rw [hlast.here_of_idle hrest] at hspot
      cases hspot
    | true =>
      -- A name before slashes is not even looked up.
      cases rest with
      | nil => rfl
      | cons y rest =>
        rw [stepOf, if_pos hall] at hstep
        cases hstep

theorem Path.exists_segments_eq {path : Path} (hne : path ≠ []) (h : isAbsolute path = false) :
    ∃ x rest, x ≠ [] ∧ segments path = x :: rest := by
  cases path with
  | nil => exact absurd rfl hne
  | cons c path =>
    have hc : c ≠ '/' := by simpa [isAbsolute] using h
    rw [segments, Text.splitOn, if_neg hc]
    cases Text.splitOn '/' path with
    | nil => exact ⟨[c], [], by simp, rfl⟩
    | cons piece rest => exact ⟨c :: piece, rest, by simp, rfl⟩

/-- A manifest path has one component: behind its first segment nothing leads on. -/
theorem Settings.exists_segments_of_isManifestFile {file : Text} (h : isManifestFile file = true)
    (habs : isAbsolute file = false) :
    ∃ x rest, x ≠ [] ∧ segments file = x :: rest ∧ (rest.filter fun s => !isIdle s) = [] := by
  simp only [isManifestFile, Bool.and_eq_true, Bool.not_eq_true', beq_iff_eq, componentCount] at h
  obtain ⟨hne, hcount⟩ := h
  obtain ⟨x, rest, hx, hsegments⟩ := exists_segments_eq (by simpa using hne) habs
  refine ⟨x, rest, hx, hsegments, List.eq_nil_of_length_eq_zero ?_⟩
  have hparts := parts_eq_of_not_absolute habs
  rw [hsegments] at hparts
  by_cases hdot : x = ['.']
  · subst hdot
    rw [hparts] at hcount
    simpa using hcount
  · have hnothing : parts file = ⟨.nothing, x :: rest⟩ := by
      rw [hparts]
      split
      · rename_i heq
        exact absurd (List.cons.inj heq).1 hdot
      · rfl
    have hidle : isIdle x = false := by simp [isIdle, hx, hdot]
    rw [hnothing, List.filter_cons_of_pos (by simp [hidle])] at hcount
    simpa using hcount

theorem Settings.steps_of_isManifestFile {file : Text} (h : isManifestFile file = true)
    (habs : isAbsolute file = true) : steps file = [] := by
  simp only [isManifestFile, Bool.and_eq_true, beq_iff_eq, componentCount] at h
  have hroot : (parts file).root = .slash := by
    rw [isAbsolute_eq] at habs
    simpa using habs
  have hcount := h.2
  rw [hroot] at hcount
  rw [steps_eq]
  exact List.eq_nil_of_length_eq_zero (by simpa using hcount)

theorem Settings.isName_of_writablePlace {base : Path} {file : Text} {place : Location}
    (hfile : isManifestFile file = true) (h : fs.writablePlace (join base file) = .ok place) :
    isName file = true := by
  obtain ⟨parent, name, hlocate⟩ : ∃ parent name,
      fs.locate .file (join base file) = .ok (.named parent name false) := by
    unfold writablePlace at h
    split at h
    · cases h
    · cases h
    · rename_i parent name slash hlocate
      cases slash with
      | true => cases h
      | false => exact ⟨parent, name, hlocate⟩
  obtain ⟨-, -, hfollows⟩ := locate_ok_iff.1 hlocate
  cases habs : isAbsolute file with
  | true =>
    rw [join, if_pos habs] at hfollows
    have := hfollows.here_of_idle (Settings.steps_of_isManifestFile hfile habs)
    cases this
  | false =>
    obtain ⟨before, hbefore⟩ := exists_segments_join_path base habs
    obtain ⟨x, rest, hx, hsegments, hrest⟩ := Settings.exists_segments_of_isManifestFile hfile habs
    have hall : (segments file).all List.isEmpty = false := by simp [hsegments, hx]
    rw [hbefore] at hfollows
    obtain ⟨j, q, -, hlast⟩ := hfollows.split hall
    rw [hsegments] at hlast
    cases hidle : isIdle x with
    | true =>
      have hnone : ((x :: rest).filter fun s => !isIdle s) = [] := by
        rw [List.filter_cons_of_neg (by simp [hidle]), hrest]
      have := hlast.here_of_idle hnone
      cases this
    | false =>
      obtain ⟨rfl, hdown⟩ := hlast.eq_nil_of_file hidle hrest
      have hpath := Text.joinWith_splitOn '/' file
      rw [← segments, hsegments] at hpath
      obtain rfl : x = file := by simpa [Text.joinWith, List.intercalate] using hpath
      refine isName_of_isDown hdown (Text.not_mem_of_mem_splitOn (s := x) ?_)
      rw [← segments, hsegments]
      exact List.mem_cons_self

end

end Namespacing
