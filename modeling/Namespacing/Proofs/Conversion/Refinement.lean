import Namespacing.Proofs.Conversion.Runs
set_option autoImplicit false

open Namespacing.Path Namespacing.FileSystem

namespace Namespacing

/-- A plan has been carried out: the target tree lies at `top`, and the rest of the disk is as it was
when the source files were walked. -/
structure Plan.Realized (plan : Plan) (workspace : Workspace) (walked : FileSystem) (top : Location)
    (report : Report) (disk : FileSystem) : Prop where
  tree : disk.stat workspace.target = .ok (top, .directory)
  holds : ∀ names entry, disk.get? (names.reverse ++ top) = some entry ↔ plan.result.Holds names entry
  copy : ∀ names last, plan.last? names = some last → ∃ content,
    last.revised? plan.revision = some content ∧ disk.get? (names.reverse ++ top) = some (.file content)
  outside : ∀ place, within top place = false → disk.get? place = walked.get? place
  reported : report = plan.report workspace
  once : (report.classFiles ++ report.functionFiles).Nodup
  count : report.copied = (report.classFiles ++ report.functionFiles).length

namespace Plan

theorem files_result {plan : Plan} {names : List Name} (h : names ≠ [plan.settings.manifestFile]) :
    plan.result.files names = (plan.last? names).bind (Source.revised? plan.revision) := if_neg h

theorem last?_ne_manifest {plan : Plan} {names : List Name} {source : Source}
    (h : plan.last? names = some source) (file : Name) : names ≠ [file] := by
  rintro rfl
  have hsegments : plan.ns.segments ≠ [] := Text.splitOn_ne_nil _ _
  have hlength : ∀ {rest : List Name}, plan.ns.segments ++ rest = [file] → rest = [] := by
    intro rest heq
    have := congrArg List.length heq
    have hpos := List.length_pos_iff.2 hsegments
    rw [List.length_append, List.length_singleton] at this
    exact List.eq_nil_of_length_eq_zero (by omega)
  rcases List.mem_append.1 (mem_places_of_last? h) with hmem | hmem
  · obtain ⟨name, -, heq⟩ := List.mem_map.1 hmem
    rw [List.append_assoc] at heq
    cases hlength heq
  · obtain ⟨name, -, heq⟩ := List.mem_map.1 hmem
    cases hlength heq

theorem nodup_map_join {plan : Plan} (h : plan.Proper) (role : FileRole) (base : Path) :
    ((plan.names role).map (join base)).Nodup := by
  refine List.pairwise_map.2 ((plan.nodup_names role).imp_of_mem fun ha hb hne heq => hne ?_)
  exact join_injective (isAbsolute_of_not_mem (h.not_mem ha)) (isAbsolute_of_not_mem (h.not_mem hb)) heq

theorem nodup_files {plan : Plan} (h : plan.Proper) (husable : plan.settings.Usable)
    (source target : Path) :
    ((plan.report (Workspace.ofRoots plan.settings source target)).classFiles ++
      (plan.report (Workspace.ofRoots plan.settings source target)).functionFiles).Nodup := by
  refine List.nodup_append.2 ⟨nodup_map_join h _ _, nodup_map_join h _ _, ?_⟩
  intro a ha b hb heq
  obtain ⟨m, hm, rfl⟩ := List.mem_map.1 ha
  obtain ⟨n, hn, rfl⟩ := List.mem_map.1 hb
  have hsteps : ∀ {base : Path} {name : Name}, isName name = true →
      (steps (join base name)).length = (steps base).length + 1 := by
    intro base name hname
    obtain ⟨hdown, hslash⟩ := isDown_of_isName hname
    rw [steps_join base (isAbsolute_of_not_mem hslash), steps_of_not_mem hslash hdown.1]
    simp
  have hlength := congrArg (fun path => (steps path).length) heq
  rw [hsteps (isName_of_mem_names h hm), hsteps (isName_of_mem_names h hn),
    (Workspace.leads_classDirectory source target husable).steps,
    (Workspace.leads_functionDirectory source target husable).steps] at hlength
  simp only [List.length_append, List.length_singleton] at hlength
  omega

end Plan

section

variable {settings : Settings} {source target : Path} {session after : Session} {report : Report}

/-- A conversion that succeeds has carried out the plan of the files that the walk found. -/
theorem convert_realizes_plan
    (hgrounded : (session.files.removeDirectories (join target Workspace.treeName)).2.Grounded target)
    (h : Session.convert settings source target session = (.ok report, after)) :
    ∃ sources top,
      settings.Finds ((Workspace.ofRoots settings source target).prepared session.files)
        (Workspace.ofRoots settings source target).source sources ∧
      (Plan.mk settings sources).Realized (Workspace.ofRoots settings source target)
        ((Workspace.ofRoots settings source target).prepared session.files) top report after.files := by
  obtain ⟨sources, top, hconverted⟩ :=
    (@ensures_convert settings source target session.files hgrounded).of_ok rfl h
  obtain ⟨k, hfresh⟩ := hconverted.fresh
  have hstage := hconverted.stage
  refine ⟨sources, top, hconverted.finds, ?_⟩
  have hreport := hconverted.report
  subst hreport
  refine ⟨?_, fun names entry => hstage.get?_eq_some_iff, fun names last hlast => ?_, hstage.outside, rfl,
    Plan.nodup_files hconverted.proper hconverted.usable source target, ?_⟩
  · exact stat_directory_iff.2
      ⟨hconverted.followable, k, hfresh.reaches.extend (hstage.extends hfresh)⟩
  · obtain ⟨content, hcontent⟩ := Option.isSome_iff_exists.1 (hconverted.encoded names last hlast)
    refine ⟨content, hcontent, hstage.get?_eq_some_iff.2 (Or.inr ⟨content, ?_, rfl⟩)⟩
    rw [Plan.files_result (Plan.last?_ne_manifest hlast _), hlast]
    exact hcontent
  · simp [Plan.report]

end

def everyFile : Settings := { Settings.default with filePattern := "*".toList }

set_option maxRecDepth 2000 in
theorem convert_realizes_plan_of_class :
    ∃ report after, Session.convert everyFile "s".toList "t".toList
        ⟨libraryDisk "A".toList (Text.toUtf8 "<?php class A \x7b\x7d".toList), []⟩ = (.ok report, after) ∧
      ∃ sources top,
        everyFile.Finds ((Workspace.ofRoots everyFile "s".toList "t".toList).prepared
          (libraryDisk "A".toList (Text.toUtf8 "<?php class A \x7b\x7d".toList)))
          (Workspace.ofRoots everyFile "s".toList "t".toList).source sources ∧
        (Plan.mk everyFile sources).Realized (Workspace.ofRoots everyFile "s".toList "t".toList)
          ((Workspace.ofRoots everyFile "s".toList "t".toList).prepared
            (libraryDisk "A".toList (Text.toUtf8 "<?php class A \x7b\x7d".toList))) top report after.files := by
  have htext : (Encoding.decode (Text.toUtf8 "<?php class A \x7b\x7d".toList)).1 =
      "<?php class A \x7b\x7d".toList := by cbv
  have hrole : (Source.mk ⟨["A".toList]⟩ (Text.toUtf8 "<?php class A \x7b\x7d".toList)).role =
      .classBearing := by
    rw [Source.role, Source.outline, Source.text, htext]
    decide +kernel
  have hcopy : (((Workspace.ofRoots everyFile "s".toList "t".toList).prepared
      (libraryDisk "A".toList (Text.toUtf8 "<?php class A \x7b\x7d".toList))).createDirectories
      (Workspace.ofRoots everyFile "s".toList "t".toList).classDirectory).2.copy "s/src/A".toList
      "t/src/Facebook/Libphutil/A".toList = .ok
      ((((Workspace.ofRoots everyFile "s".toList "t".toList).prepared
        (libraryDisk "A".toList (Text.toUtf8 "<?php class A \x7b\x7d".toList))).createDirectories
        (Workspace.ofRoots everyFile "s".toList "t".toList).classDirectory).2.put
        (["t", "src", "Facebook", "Libphutil", "A"].map String.toList).reverse
        (.file (Text.toUtf8 "<?php class A \x7b\x7d".toList))) := by cbv
  obtain ⟨report, after, hrun⟩ := @convert_of_class_file everyFile "s".toList "t".toList
    ⟨libraryDisk "A".toList (Text.toUtf8 "<?php class A \x7b\x7d".toList), []⟩ ⟨["A".toList]⟩ _ _ _
    (["t", "src", "Facebook", "Libphutil", "A"].map String.toList).reverse
    (["t", "src", "function_mapping.txt"].map String.toList).reverse
    (by cbv) (by cbv) (by cbv) (by cbv) (by cbv) (by cbv) hrole (by cbv) (by cbv) hcopy (by cbv)
    (by cbv) (by cbv) (by intro c; cbv)
  exact ⟨report, after, hrun, convert_realizes_plan (grounded_of_not_mem (by decide)) hrun⟩

def remainsDisk : FileSystem :=
  ((((FileSystem.empty.put ["s".toList] .directory).put ["src".toList, "s".toList] .directory).put
    ["t".toList] .directory).put ["src".toList, "t".toList] .directory).put
    ["stale.txt".toList, "src".toList, "t".toList] (.file [1])

set_option maxRecDepth 2000 in
/-- Where the path of the target goes up out of a missing directory, the old tree is not removed, and what
it held stays in the new one. -/
theorem convert_leaves_remains :
    ∃ report after, Session.convert Settings.default "s".toList "m/../t".toList ⟨remainsDisk, []⟩ =
        (.ok report, after) ∧
      Settings.default.Finds ((Workspace.ofRoots Settings.default "s".toList "m/../t".toList).prepared
        remainsDisk) (Workspace.ofRoots Settings.default "s".toList "m/../t".toList).source [] ∧
      after.files.stat (Workspace.ofRoots Settings.default "s".toList "m/../t".toList).target =
        .ok (["src".toList, "t".toList], .directory) ∧
      after.files.get? (["stale.txt".toList].reverse ++ ["src".toList, "t".toList]) = some (.file [1]) ∧
      ¬ (Plan.mk Settings.default []).result.Holds ["stale.txt".toList] (.file [1]) := by
  have hfiles : Settings.default.filesIn (((Workspace.ofRoots Settings.default "s".toList
      "m/../t".toList).prepared remainsDisk).tree
      (Workspace.ofRoots Settings.default "s".toList "m/../t".toList).source) = .ok [] := by cbv
  obtain ⟨report, progress, hrun⟩ := @convert_of_no_files Settings.default "s".toList "m/../t".toList
    ⟨remainsDisk, []⟩ ["function_mapping.txt".toList, "src".toList, "t".toList]
    (by cbv) (by cbv) (by cbv) (by cbv) hfiles (by cbv)
  refine ⟨report, _, hrun, ⟨hfiles, by simp⟩, by cbv, by cbv, ?_⟩
  rintro (⟨-, hfile⟩ | ⟨content, hfile, -⟩)
  · cases hfile
  · have hnone := @Plan.files_result ⟨Settings.default, []⟩ ["stale.txt".toList] (by decide)
    rw [hfile] at hnone
    cases hnone

end Namespacing
