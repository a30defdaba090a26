import Namespacing.Proofs.Conversion.Runs
set_option autoImplicit false

open Namespacing.Path Namespacing.FileSystem

namespace Namespacing

/-- Everything outside of the tree that is removed is there afterwards, as it was. -/
theorem convert_keeps {settings : Settings} {source target : Path} {session : Session} {place : Location}
    {entry : Entry}
    (hgrounded : (session.files.removeDirectories (join target Workspace.treeName)).2.Grounded target)
    (hout : ∀ top found, session.files.linkStat (join target Workspace.treeName) = .ok (top, found) →
      within top place = false)
    (hget : session.files.get? place = some entry) :
    (Session.convert settings source target session).2.files.get? place = some entry := by
  obtain ⟨before, hsegments⟩ := @Workspace.exists_segments_target settings source target
  have hwiped : (session.files.removeDirectories (join target Workspace.treeName)).2.get? place =
      some entry := by
    rw [← hget]
    exact get?_removeDirectories hsegments Workspace.isDown_treeName hout
  have hensures := @ensures_convert settings source target session.files hgrounded
  rcases hconvert : Session.convert settings source target session with ⟨fault | report, after⟩
  · exact (hensures.of_error rfl hconvert).entry place entry hwiped
  · obtain ⟨sources, top, hconverted⟩ := hensures.of_ok rfl hconvert
    obtain ⟨k, hfresh⟩ := hconverted.fresh
    have hprepared : Grows (session.files.removeDirectories (join target Workspace.treeName)).2
        ((Workspace.ofRoots settings source target).prepared session.files) := grows_createDirectories _
    exact (hprepared.trans (hconverted.stage.grows hfresh)).entry place entry hwiped

theorem convert_keeps_library :
    (libraryDisk "A.php".toList (Text.toUtf8 "<?php class A".toList)).get?
        ["A.php".toList, "src".toList, "s".toList] =
      some (.file (Text.toUtf8 "<?php class A".toList)) ∧
    (Session.convert Settings.default "s".toList "t".toList
      ⟨libraryDisk "A.php".toList (Text.toUtf8 "<?php class A".toList), []⟩).2.files.get?
        ["A.php".toList, "src".toList, "s".toList] =
      some (.file (Text.toUtf8 "<?php class A".toList)) := by
  have hget : (libraryDisk "A.php".toList (Text.toUtf8 "<?php class A".toList)).get?
      ["A.php".toList, "src".toList, "s".toList] =
      some (.file (Text.toUtf8 "<?php class A".toList)) := by cbv
  have hmissing : (libraryDisk "A.php".toList (Text.toUtf8 "<?php class A".toList)).linkStat
      (join "t".toList Workspace.treeName) = .error .notFound := by cbv
  refine ⟨hget, convert_keeps (grounded_of_not_mem (by decide)) ?_ hget⟩
  intro top found hstat
  rw [hmissing] at hstat
  cases hstat

set_option maxRecDepth 2000 in
/-- Converted onto itself, a library loses its files. So does one at the end of a way up out of a missing
directory, where nothing is removed: the manifest is written over one of them. -/
theorem convert_onto_itself_loses_files :
    ((libraryDisk "A.php".toList (Text.toUtf8 "<?php class A".toList)).get?
        ["A.php".toList, "src".toList, "s".toList] =
      some (.file (Text.toUtf8 "<?php class A".toList)) ∧
    ∃ report after, Session.convert Settings.default "s".toList "s".toList
        ⟨libraryDisk "A.php".toList (Text.toUtf8 "<?php class A".toList), []⟩ = (.ok report, after) ∧
      after.files.get? ["A.php".toList, "src".toList, "s".toList] = none) ∧
    (libraryDisk "f".toList [1]).get? ["f".toList, "src".toList, "s".toList] = some (.file [1]) ∧
    ∃ report after, Session.convert
        { Settings.default with filePattern := "x".toList, manifestFile := "f".toList }
        "s".toList "m/../s".toList ⟨libraryDisk "f".toList [1], []⟩ = (.ok report, after) ∧
      after.files.get? ["f".toList, "src".toList, "s".toList] = some (.file []) := by
  refine ⟨⟨by cbv, ?_⟩, by cbv, ?_⟩
  · obtain ⟨report, progress, hrun⟩ := @convert_of_no_files Settings.default "s".toList "s".toList
      ⟨libraryDisk "A.php".toList (Text.toUtf8 "<?php class A".toList), []⟩
      ["function_mapping.txt".toList, "src".toList, "s".toList]
      (by cbv) (by cbv) (by cbv) (by cbv) (by cbv) (by cbv)
    exact ⟨report, _, hrun, by cbv⟩
  · obtain ⟨report, progress, hrun⟩ := @convert_of_no_files
      { Settings.default with filePattern := "x".toList, manifestFile := "f".toList }
      "s".toList "m/../s".toList ⟨libraryDisk "f".toList [1], []⟩ ["f".toList, "src".toList, "s".toList]
      (by cbv) (by cbv) (by cbv) (by cbv) (by cbv) (by cbv)
    exact ⟨report, _, hrun, by cbv⟩

end Namespacing
