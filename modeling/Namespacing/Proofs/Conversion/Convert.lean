import Namespacing.Proofs.Conversion.Phases
set_option autoImplicit false

open Namespacing.Path Namespacing.FileSystem

namespace Namespacing

/-- The disk that the source files are walked on: the target tree is removed, and the directory of the
namespace is made. -/
def Workspace.prepared (workspace : Workspace) (disk : FileSystem) : FileSystem :=
  ((disk.removeDirectories workspace.target).2.createDirectories workspace.classDirectory).2

structure Settings.Finds (settings : Settings) (disk : FileSystem) (path : Path)
    (sources : List Source) : Prop where
  files : settings.filesIn (disk.tree path) = .ok (sources.map Source.file)
  content : ∀ source ∈ sources, disk.read (source.file.path path) = .ok source.content

section

variable {settings : Settings} {source target : Path} {fs : FileSystem}

structure Converted (settings : Settings) (source target : Path) (fs : FileSystem) (sources : List Source)
    (top : Location) (report : Report) (disk : FileSystem) : Prop where
  usable : settings.Usable
  followable : Followable (Workspace.ofRoots settings source target).target
  fresh : ∃ k, Fresh ((Workspace.ofRoots settings source target).prepared fs)
    (isAbsolute (Workspace.ofRoots settings source target).target)
    (steps (Workspace.ofRoots settings source target).target) settings.toNamespace.segments k top
  finds : settings.Finds ((Workspace.ofRoots settings source target).prepared fs)
    (Workspace.ofRoots settings source target).source sources
  proper : (Plan.mk settings sources).Proper
  stage : Stage ((Workspace.ofRoots settings source target).prepared fs)
    settings.toNamespace.segments top (Plan.mk settings sources).result disk
  encoded : ∀ names last, (Plan.mk settings sources).last? names = some last →
    (last.revised? (Plan.mk settings sources).revision).isSome
  report : report = (Plan.mk settings sources).report (Workspace.ofRoots settings source target)

/-- What a conversion that fails leaves of a disk: all of it if it does not even start, and else what each
of its phases may leave. -/
inductive Left (settings : Settings) (source target : Path) (fs : FileSystem) : FileSystem → Prop where
  | untouched (h : settings.check = .ok () →
      fs.pathIsDirectory (Workspace.ofRoots settings source target).source = false) :
      Left settings source target fs fs
  | wiped (h : settings.Usable) :
      Left settings source target fs (fs.removeDirectories (join target Workspace.treeName)).2
  | prepared (h : settings.Usable)
      (hwipe : (fs.removeDirectories (join target Workspace.treeName)).1 = .ok ()) :
      Left settings source target fs ((Workspace.ofRoots settings source target).prepared fs)
  | halfway {disk : FileSystem} {k : Nat} {top : Location} (h : settings.Usable)
      (hwipe : (fs.removeDirectories (join target Workspace.treeName)).1 = .ok ())
      (hfollowable : Followable (Workspace.ofRoots settings source target).target)
      (hfresh : Fresh ((Workspace.ofRoots settings source target).prepared fs)
        (isAbsolute (Workspace.ofRoots settings source target).target)
        (steps (Workspace.ofRoots settings source target).target) settings.toNamespace.segments k top)
      (hdisk : Halfway settings (Workspace.ofRoots settings source target)
        ((Workspace.ofRoots settings source target).prepared fs) top disk) :
      Left settings source target fs disk

theorem Left.grows {disk : FileSystem} (h : Left settings source target fs disk) :
    Grows (fs.removeDirectories (join target Workspace.treeName)).2 disk := by
  have hprepared : Grows (fs.removeDirectories (join target Workspace.treeName)).2
      ((Workspace.ofRoots settings source target).prepared fs) := grows_createDirectories _
  cases h with
  | untouched => exact grows_removeDirectories _
  | wiped => exact .refl
  | prepared => exact hprepared
  | halfway h hwipe hfollowable hfresh hdisk =>
    obtain ⟨sources, inventory, -, -, -, hstage⟩ := hdisk
    exact hprepared.trans (hstage.grows hfresh)

theorem FileSystem.Grounded.anchored_tree {w : FileSystem} (h : w.Grounded target) :
    w.Anchored (isAbsolute (join target Workspace.treeName)) (steps (join target Workspace.treeName)) := by
  have hslash : '/' ∉ Workspace.treeName := by decide
  have habs := isAbsolute_of_not_mem hslash
  rw [isAbsolute_join target habs, steps_join target habs]
  refine h.anchored.append_down fun name hname => ?_
  rw [steps_of_not_mem hslash Workspace.isDown_treeName.1, List.mem_singleton] at hname
  rw [hname]
  exact Workspace.isDown_treeName

theorem ensures_prepare (husable : settings.Usable)
    (hgrounded : (fs.removeDirectories (join target Workspace.treeName)).2.Grounded target) :
    Ensures (prepare (Workspace.ofRoots settings source target)) (fun disk => disk = fs)
      (fun _ disk => ((fs.removeDirectories (join target Workspace.treeName)).1 = .ok () ∧
        Followable (Workspace.ofRoots settings source target).target ∧
        ∃ k top, Fresh ((Workspace.ofRoots settings source target).prepared fs)
          (isAbsolute (Workspace.ofRoots settings source target).target)
          (steps (Workspace.ofRoots settings source target).target) settings.toNamespace.segments k top ∧
        Stage ((Workspace.ofRoots settings source target).prepared fs) settings.toNamespace.segments top
          (Plan.mk settings []).copies ((Workspace.ofRoots settings source target).prepared fs)) ∧
        disk = (Workspace.ofRoots settings source target).prepared fs)
      (Left settings source target fs) := by
  obtain ⟨before, htree⟩ := @Workspace.exists_segments_target settings source target
  obtain ⟨before', x', hpath, hx'⟩ := Workspace.exists_segments_classDirectory source target husable
  have hline : ∀ name ∈ settings.toNamespace.segments, IsDown name := fun name hname =>
    (isDown_of_isName (Workspace.isName_of_mem_segments husable hname)).1
  have hanchored := hgrounded.anchored_tree
  unfold prepare
  have hwipe : Ensures (Storage.wipe (Workspace.ofRoots settings source target).target)
      (fun disk => disk = fs)
      (fun _ disk => fs.removeDirectories (join target Workspace.treeName) = (.ok (), disk))
      (Left settings source target fs) := by
    refine Ensures.inContext_attempt _ ?_ ?_
    · rintro disk rfl
      exact .wiped husable
    · rintro disk disk' rfl hwipe
      exact hwipe
  refine hwipe.bind fun _ => Ensures.inContext_attempt _ ?_ ?_
  · intro disk hdisk
    have hprepared : (disk.createDirectories (Workspace.ofRoots settings source target).classDirectory).2 =
        (Workspace.ofRoots settings source target).prepared fs := by
      rw [Workspace.prepared]
      change _ = (FileSystem.createDirectories (fs.removeDirectories (join target Workspace.treeName)).2 _).2
      rw [hdisk]
    rw [hprepared]
    exact .prepared husable (by rw [hdisk])
  · intro disk disk' hdisk hcreate
    rw [hdisk] at hanchored
    have hprepared : (Workspace.ofRoots settings source target).prepared fs = disk' := by
      change (FileSystem.createDirectories (fs.removeDirectories (join target Workspace.treeName)).2
        _).2 = _
      rw [hdisk]
      exact congrArg Prod.snd hcreate
    refine ⟨⟨by rw [hdisk], ?_⟩, hprepared.symm⟩
    rw [hprepared]
    exact exists_fresh htree Workspace.isDown_treeName hpath hx'
      (Workspace.leads_classDirectory source target husable) hline
      (Workspace.exists_classDirectory_eq source target husable) hanchored hdisk hcreate

theorem ensures_convert_left
    (hgrounded : (fs.removeDirectories (join target Workspace.treeName)).2.Grounded target) :
    Ensures (Namespacing.convert SessionM.tell settings source target) (fun disk => disk = fs)
      (fun report disk => (fs.removeDirectories (join target Workspace.treeName)).1 = .ok () ∧
        ∃ sources top, Converted settings source target fs sources top report disk)
      (Left settings source target fs) := by
  unfold Namespacing.convert
  refine (Ensures.ofExcept _ ?_).bind fun _ => Ensures.of_and fun hcheck => ?_
  · rintro fault hfault disk rfl
    exact .untouched fun h => by rw [h] at hfault; cases hfault
  have husable := Settings.usable_of_check hcheck
  refine (Ensures.look _).bind fun present => ?_
  dsimp only
  split
  · rename_i hmissing
    rintro session ⟨rfl, hpresent⟩
    refine .untouched fun _ => ?_
    rw [hpresent]
    simpa using hmissing
  · refine ((ensures_prepare husable hgrounded).consequence (fun _ h => h.1) fun _ _ => id).bind fun _ => ?_
    refine (Ensures.tell _).bind fun _ => Ensures.of_and ?_
    rintro ⟨hwipe, hfollowable, k, top, hfresh, hstage⟩
    have hfails : ∀ disk, Halfway settings (Workspace.ofRoots settings source target)
        ((Workspace.ofRoots settings source target).prepared fs) top disk →
        Left settings source target fs disk := fun disk =>
      .halfway husable hwipe hfollowable hfresh
    have hthere : ∀ disk, disk = (Workspace.ofRoots settings source target).prepared fs →
        Left settings source target fs disk := by
      rintro disk rfl
      exact .prepared husable hwipe
    refine (ensures_sourceFiles settings _ hthere).bind fun files => ?_
    have hfound : ∀ disk, disk = (Workspace.ofRoots settings source target).prepared fs ∧
        settings.filesIn (disk.tree (Workspace.ofRoots settings source target).source) = .ok files →
        settings.filesIn (((Workspace.ofRoots settings source target).prepared fs).tree
          (Workspace.ofRoots settings source target).source) = .ok files := by
      rintro disk ⟨rfl, hfiles⟩
      exact hfiles
    refine Ensures.assuming hfound fun hfiles => ?_
    refine (((ensures_harvest husable hfresh hfiles).weaken hfails).consequence ?_ fun _ _ => id).bind
      fun harvest => ?_
    · rintro disk ⟨rfl, -⟩
      exact hstage
    refine Ensures.of_exists fun sources => Ensures.of_and ?_
    rintro rfl
    refine Ensures.assuming (fun disk hdisk =>
      And.intro hdisk.harvest (And.intro hdisk.proper hdisk.read)) ?_
    rintro ⟨rfl, hproper, hread⟩
    refine (Ensures.tell _).bind fun _ => (Ensures.tell _).bind fun _ => ?_
    have hrevise := @ensures_reviseCopies (Plan.mk settings sources) source target _ k top hproper husable
      hfresh hread
    have hmanifest := @ensures_writeManifest (Plan.mk settings sources) source target _ k top husable hfresh
      hread
    refine ((hrevise.weaken hfails).consequence (fun disk hdisk => hdisk.stage) fun _ _ => id).bind
      fun _ => (hmanifest.weaken hfails).bind fun _ => (Ensures.tell _).bind fun _ => Ensures.pure ?_
    rintro disk ⟨hresult, hencoded⟩
    refine ⟨hwipe, sources, top, husable, hfollowable, ⟨k, hfresh⟩, ⟨hfiles, hread⟩, hproper, hresult, hencoded, ?_⟩
    simp only [Plan.report, Plan.harvest, List.length_map]
    rfl

theorem ensures_convert
    (hgrounded : (fs.removeDirectories (join target Workspace.treeName)).2.Grounded target) :
    Ensures (Namespacing.convert SessionM.tell settings source target) (fun disk => disk = fs)
      (fun report disk => ∃ sources top, Converted settings source target fs sources top report disk)
      (Grows (fs.removeDirectories (join target Workspace.treeName)).2) :=
  ((ensures_convert_left hgrounded).weaken fun _ h => h.grows).consequence (fun _ => id) fun _ _ h => h.2

end

end Namespacing
