import Namespacing.Proofs.Conversion.Refusals
import Namespacing.Proofs.Conversion.Runs
set_option autoImplicit false

open Namespacing.Path Namespacing.FileSystem

namespace Namespacing

namespace FileSystem

variable {fs fs' : FileSystem} {path : Path} {place top : Location}

theorem linkStat_of_reaches {before : List Text} {x : Name} {k : Nat} {parent : Location}
    (hsegments : segments path = before ++ [x]) (hx : IsDown x) (hsize : Text.utf8Size x ≤ maxNameSize)
    (hpath : Followable path)
    (hreaches : fs.Reaches (isAbsolute path) (before.filter fun s => !isIdle s) k parent)
    (hget : fs.get? (x :: parent) = some .directory) :
    fs.linkStat path = .ok (x :: parent, .directory) := by
  have hlocate := (@Reaches.locate_last fs path before x k parent .entry hreaches hpath hsegments hx
    (by decide)).2 hsize fun _ _ => rfl
  rw [linkStat, hlocate]
  simp only [entryAt, hget]

theorem Extends.linkStat_directory (h : Extends fs fs') (hstat : fs.linkStat path = .ok (top, .directory)) :
    fs'.linkStat path = .ok (top, .directory) := by
  unfold linkStat at hstat ⊢
  split at hstat
  · cases hstat
  · rename_i spot hlocate
    rw [h.locate hlocate]
    cases spot with
    | here place => exact hstat
    | named parent name slash =>
      simp only [entryAt] at hstat ⊢
      split at hstat
      · cases hstat
      · rename_i hget
        obtain ⟨rfl, -⟩ := Prod.mk.inj (Except.ok.inj hstat)
        rw [h.directory _ hget]
      · rename_i entry hne hget
        split at hstat
        · cases hstat
        · obtain ⟨rfl, rfl⟩ := Prod.mk.inj (Except.ok.inj hstat)
          exact absurd rfl hne

theorem exists_name_of_linkStat {dest : Path} (hstat : fs.linkStat path = .ok (top, .link dest)) :
    ∃ name parent, top = name :: parent := by
  unfold linkStat at hstat
  split at hstat
  · cases hstat
  · rename_i spot hlocate
    cases spot with
    | here place => cases hstat
    | named parent name slash =>
      simp only [entryAt] at hstat
      split at hstat
      · cases hstat
      · cases hstat
      · split at hstat
        · cases hstat
        · exact ⟨name, parent, (Prod.mk.inj (Except.ok.inj hstat)).1.symm⟩

theorem followable_of_createDirectories_ne (hne : path ≠ []) (h : (fs.createDirectories path).2 ≠ fs) :
    Followable path := by
  rcases hcreate : fs.createDirectories path with ⟨outcome, fs'⟩
  cases outcome with
  | ok _ => exact followable_of_createDirectories hne hcreate
  | error error =>
    rw [hcreate] at h
    rcases ensureChain_cons_error hcreate with rfl | ⟨hnotFound, -⟩
    · exact absurd rfl h
    · exact followable_of_locate_notFound hne (locate_of_ensureDirectory_notFound hnotFound).1

theorem Made.reaches_new {absolute : Bool} {steps pre ys zs : List Text} {k : Nat}
    (h : Made fs absolute steps fs' pre ys k place) (hzs : zs <+: ys) :
    fs'.Reaches absolute (pre ++ zs) k (zs.reverse ++ place) := by
  have hpre := h.reaches.extend h.adds.extends
  refine ⟨hpre.start, hpre.walks.append (walks_down (fun z hz => h.down z (hzs.subset hz)) ?_)⟩
  exact fun us hne hus => h.adds.added us hne (hus.trans hzs)

/-- The place lies in the entry that a path names. A link at the end of the path is that entry itself, and
nothing lies in it. -/
def Encloses (fs : FileSystem) (path : Path) (place : Location) : Prop :=
  ∃ top found, fs.linkStat path = .ok (top, found) ∧ within top place = true

/-- A directory that is new on the second disk, at the end of some of the steps of a path. -/
def NewOnWay (fs fs' : FileSystem) (path : Path) (place : Location) : Prop :=
  fs.get? place = none ∧ fs'.get? place = some .directory ∧
    ∃ steps k, steps <+: Path.steps path ∧ fs'.Reaches (isAbsolute path) steps k place

section

variable {tree : Path} {before before' : List Text} {x x' : Text} {line : List Name}
  (htree : segments tree = before ++ [x]) (hx : IsDown x) (hsize : Text.utf8Size x ≤ maxNameSize)
  (hpath : segments path = before' ++ [x']) (hx' : isIdle x' = false)
  (hleads : Leads (isAbsolute tree) (steps tree) path line) (hline : ∀ name ∈ line, IsDown name)
  (hbelow : ∃ rest, path = tree ++ rest)

include htree hx hsize hpath hx' hleads hline hbelow

theorem get?_createDirectories {w : FileSystem} (hanchored : w.Anchored (isAbsolute tree) (steps tree))
    (hwipe : fs.removeDirectories tree = (.ok (), w)) (place : Location) :
    (w.createDirectories path).2.get? place = w.get? place ∨
      w.get? place = none ∧ (w.createDirectories path).2.get? place = some .directory ∧
        ((w.createDirectories path).2.Encloses tree place ∨
          ∃ steps k, steps <+: Path.steps tree ∧
            (w.createDirectories path).2.Reaches (isAbsolute tree) steps k place) := by
  have hanchored' := hanchored.append_down hline
  rw [← hleads.steps, ← hleads.absolute] at hanchored'
  rcases createDirectories_left hpath hx' hanchored' with hsame | ⟨xs, pre, ys, k, p, hxs, hmade⟩
  · rw [hsame]
    exact Or.inl rfl
  by_cases hsame : (w.createDirectories path).2 = w
  · rw [hsame]
    exact Or.inl rfl
  have hne := ne_nil_of_segments hpath hx'
  have hfollowable : Followable tree := by
    have := followable_of_createDirectories_ne hne hsame
    obtain ⟨rest, rfl⟩ := hbelow
    exact this.of_append (ne_nil_of_segments htree hx.1)
  have hgone : ∀ k place, ¬ w.Reaches (isAbsolute tree) (steps tree) k place := fun k place =>
    not_reaches_of_removeDirectories htree hx hfollowable hwipe
  rw [hleads.steps] at hxs
  rw [hleads.absolute] at hmade
  by_cases hnew : ∃ zs, zs ≠ [] ∧ zs <+: ys ∧ place = zs.reverse ++ p
  · obtain ⟨zs, hzs, hprefix, rfl⟩ := hnew
    refine Or.inr ⟨hmade.adds.fresh zs hzs hprefix, hmade.adds.added zs hzs hprefix, ?_⟩
    have hreaches := hmade.reaches_new hprefix
    have hsteps : pre ++ zs <+: steps tree ++ line := by
      refine List.IsPrefix.trans ?_ hxs
      rw [hmade.steps]
      exact (List.prefix_append_right_inj pre).2 hprefix
    rcases List.prefix_or_prefix_of_prefix hsteps (List.prefix_append _ line) with hway | ⟨names, hnames⟩
    · exact Or.inr ⟨pre ++ zs, k, hway, hreaches⟩
    · -- The directory lies below the tree, which was made on the way.
      left
      rcases List.append_eq_append_iff.1 hnames with ⟨us, rfl, rfl⟩ | ⟨us, hus, rfl⟩
      · exact absurd hmade.reaches fun hreached => by
          obtain ⟨k₁, place₁, hthere⟩ := hreached.exists_of_append
          exact hgone k₁ place₁ hthere
      · rcases List.eq_nil_or_concat us with rfl | ⟨us', y, rfl⟩
        · rw [List.append_nil] at hus
          rw [← hus] at hmade
          exact absurd hmade.reaches (hgone _ _)
        · rw [List.concat_eq_append] at hus hprefix
          rw [steps_of_segments htree hx.1, ← List.append_assoc] at hus
          obtain ⟨hbefore, hlast⟩ := List.append_inj' hus rfl
          obtain rfl := (List.cons.inj hlast).1
          have hmiddle : us' ++ [x] <+: ys := (List.prefix_append _ names).trans hprefix
          have hparent := hmade.reaches_new ((List.prefix_append us' [x]).trans hmiddle)
          have hget := hmade.adds.added (us' ++ [x]) (by simp) hmiddle
          rw [← hbefore] at hparent
          rw [List.reverse_append] at hget
          refine ⟨_, _, linkStat_of_reaches htree hx hsize hfollowable hparent hget,
            within_iff.2 ⟨names.reverse, ?_⟩⟩
          simp
  · left
    refine hmade.adds.kept place fun zs hzs hprefix heq => hnew ⟨zs, hzs, hprefix, heq⟩

omit htree hx hsize hbelow in
theorem extends_createDirectories {w : FileSystem}
    (hanchored : w.Anchored (isAbsolute tree) (steps tree)) : Extends w (w.createDirectories path).2 := by
  have hanchored' := hanchored.append_down hline
  rw [← hleads.steps, ← hleads.absolute] at hanchored'
  rcases createDirectories_left hpath hx' hanchored' with hsame | ⟨xs, pre, ys, k, p, hxs, hmade⟩
  · rw [hsame]
    exact .refl
  · exact hmade.adds.extends

end

end FileSystem

section

variable {settings : Settings} {source target : Path} {fs disk : FileSystem} {place : Location}
  (hgrounded : (fs.removeDirectories (join target Workspace.treeName)).2.Grounded target)

include hgrounded

theorem Workspace.get?_prepared (husable : settings.Usable)
    (hwipe : (fs.removeDirectories (join target Workspace.treeName)).1 = .ok ()) (place : Location) :
    ((Workspace.ofRoots settings source target).prepared fs).get? place =
        (fs.removeDirectories (join target Workspace.treeName)).2.get? place ∨
      (fs.removeDirectories (join target Workspace.treeName)).2.get? place = none ∧
        ((Workspace.ofRoots settings source target).prepared fs).get? place = some .directory ∧
        (((Workspace.ofRoots settings source target).prepared fs).Encloses (join target Workspace.treeName) place ∨
          ∃ steps k, steps <+: Path.steps (join target Workspace.treeName) ∧
            ((Workspace.ofRoots settings source target).prepared fs).Reaches
              (isAbsolute (join target Workspace.treeName)) steps k place) := by
  obtain ⟨before, htree⟩ := @Workspace.exists_segments_target settings source target
  obtain ⟨before', x', hpath, hx'⟩ := Workspace.exists_segments_classDirectory source target husable
  have hline : ∀ name ∈ settings.toNamespace.segments, IsDown name := fun name hname =>
    (isDown_of_isName (Workspace.isName_of_mem_segments husable hname)).1
  have hwiped : fs.removeDirectories (join target Workspace.treeName) =
      (.ok (), (fs.removeDirectories (join target Workspace.treeName)).2) := by rw [← hwipe]
  exact get?_createDirectories htree Workspace.isDown_treeName (by decide) hpath hx'
    (Workspace.leads_classDirectory source target husable) hline
    (Workspace.exists_classDirectory_eq source target husable) hgrounded.anchored_tree hwiped place

theorem Workspace.extends_prepared (husable : settings.Usable) :
    Extends (fs.removeDirectories (join target Workspace.treeName)).2
      ((Workspace.ofRoots settings source target).prepared fs) := by
  obtain ⟨before', x', hpath, hx'⟩ := Workspace.exists_segments_classDirectory source target husable
  have hline : ∀ name ∈ settings.toNamespace.segments, IsDown name := fun name hname =>
    (isDown_of_isName (Workspace.isName_of_mem_segments husable hname)).1
  exact extends_createDirectories hpath hx' (Workspace.leads_classDirectory source target husable)
    hline hgrounded.anchored_tree

theorem left_of_convert (session : Session) (hfiles : session.files = fs) :
    Left settings source target fs (Session.convert settings source target session).2.files := by
  have hensures := @ensures_convert_left settings source target fs hgrounded
  rcases hconvert : Session.convert settings source target session with ⟨fault | report, after⟩
  · exact hensures.of_error hfiles hconvert
  · obtain ⟨hwipe, sources, top, hconverted⟩ := hensures.of_ok hfiles hconvert
    obtain ⟨k, hfresh⟩ := hconverted.fresh
    exact .halfway hconverted.usable hwipe hconverted.followable hfresh
      (@halfway_result ⟨settings, sources⟩ _ _ _ _ hconverted.finds.content hconverted.stage)

omit hgrounded in
theorem linkStat_of_fresh {mid : FileSystem} {first : List Name} {k : Nat} {top : Location}
    (hfollowable : Followable (join target Workspace.treeName))
    (hfresh : Fresh mid (isAbsolute (join target Workspace.treeName)) (steps (join target Workspace.treeName))
      first k top) :
    mid.linkStat (join target Workspace.treeName) = .ok (top, .directory) := by
  obtain ⟨before, htree, -⟩ := exists_segments_join target (show '/' ∉ Workspace.treeName by decide)
  obtain ⟨parent, hparent, rfl⟩ := hfresh.named _ _ (steps_of_segments htree Workspace.isDown_treeName.1)
  have hget := hfresh.inside []
  rw [if_pos List.nil_prefix] at hget
  exact linkStat_of_reaches htree Workspace.isDown_treeName (by decide) hfollowable hparent hget

theorem Left.get?_cases (h : Left settings source target fs disk) (place : Location) :
    disk.get? place = fs.get? place ∨ fs.Encloses (join target Workspace.treeName) place ∨
      disk.Encloses (join target Workspace.treeName) place ∨
      NewOnWay fs disk (join target Workspace.treeName) place := by
  by_cases hold : fs.Encloses (join target Workspace.treeName) place
  · exact Or.inr (Or.inl hold)
  obtain ⟨before, htree⟩ := @Workspace.exists_segments_target settings source target
  have hwiped : (fs.removeDirectories (join target Workspace.treeName)).2.get? place = fs.get? place := by
    refine get?_removeDirectories htree Workspace.isDown_treeName fun top found hstat => ?_
    rw [← Bool.not_eq_true]
    exact fun hin => hold ⟨top, found, hstat, hin⟩
  cases h with
  | untouched => exact Or.inl rfl
  | wiped => exact Or.inl hwiped
  | prepared husable hwipe =>
    rcases Workspace.get?_prepared hgrounded husable hwipe place with hsame | ⟨hnone, hnew, hin | hway⟩
    · exact Or.inl (hsame.trans hwiped)
    · exact Or.inr (Or.inr (Or.inl hin))
    · exact Or.inr (Or.inr (Or.inr ⟨hwiped.symm.trans hnone, hnew, hway⟩))
  | @halfway _ k top husable hwipe hfollowable hfresh hdisk =>
    obtain ⟨sources, inventory, -, -, -, hstage⟩ := hdisk
    have hextends := hstage.extends hfresh
    have htop := linkStat_of_fresh hfollowable hfresh
    rcases within_cases top place with hout | ⟨names, rfl⟩
    · rw [hstage.outside place hout]
      rcases Workspace.get?_prepared hgrounded husable hwipe place with
        hsame | ⟨hnone, hnew, ⟨top', found, htop', hin⟩ | ⟨steps, j, hsteps, hreaches⟩⟩
      · exact Or.inl (hsame.trans hwiped)
      · rw [htop] at htop'
        rw [(Prod.mk.inj (Except.ok.inj htop')).1, hin] at hout
        cases hout
      · exact Or.inr (Or.inr (Or.inr ⟨hwiped.symm.trans hnone, (hstage.outside place hout).trans hnew,
          steps, j, hsteps, hreaches.extend hextends⟩))
    · exact Or.inr (Or.inr (Or.inl ⟨top, _, hextends.linkStat_directory htop, within_iff.2 ⟨_, rfl⟩⟩))

theorem Left.file_cases (h : Left settings source target fs disk) {content : Bytes}
    (hget : disk.get? place = some (.file content)) :
    fs.get? place = some (.file content) ∨
      ∃ top, disk.linkStat (join target Workspace.treeName) = .ok (top, .directory) ∧
        (place = settings.manifestFile :: top ∨
          ∃ (s : Source) (names : List Name),
            ((Workspace.ofRoots settings source target).prepared fs).read
                (s.file.path (Workspace.ofRoots settings source target).source) = .ok s.content ∧
              s.destination? settings.toNamespace = some names ∧ place = names.reverse ++ top) := by
  have hold : ∀ {place}, (fs.removeDirectories (join target Workspace.treeName)).2.get? place =
      some (.file content) → fs.get? place = some (.file content) := fun {place} =>
    (grows_removeDirectories _).entry place _
  cases h with
  | untouched => exact Or.inl hget
  | wiped => exact Or.inl (hold hget)
  | prepared husable hwipe =>
    rcases Workspace.get?_prepared hgrounded husable hwipe place with hsame | ⟨-, hnew, -⟩
    · exact Or.inl (hold (hsame.symm.trans hget))
    · rw [hget] at hnew
      cases hnew
  | @halfway _ k top husable hwipe hfollowable hfresh hdisk =>
    obtain ⟨sources, inventory, hread, -, hfiles, hstage⟩ := hdisk
    rcases within_cases top place with hout | ⟨names, rfl⟩
    · rw [hstage.outside place hout] at hget
      rcases Workspace.get?_prepared hgrounded husable hwipe place with hsame | ⟨-, hnew, -⟩
      · exact Or.inl (hold (hsame.symm.trans hget))
      · rw [hget] at hnew
        cases hnew
    · refine Or.inr ⟨top, (hstage.extends hfresh).linkStat_directory (linkStat_of_fresh hfollowable hfresh), ?_⟩
      rcases hstage.get?_eq_some_iff.1 hget with ⟨-, hentry⟩ | ⟨found, hfound, -⟩
      · cases hentry
      · rcases hfiles names found hfound with rfl | ⟨s, hs, hdestination⟩
        · exact Or.inl rfl
        · exact Or.inr ⟨s, names, hread s hs, hdestination, rfl⟩

theorem Left.ne_link (h : Left settings source target fs disk) (hcheck : settings.check = .ok ())
    (hsource : fs.pathIsDirectory (Workspace.ofRoots settings source target).source = true) {top : Location}
    {dest : Path} (hstat : fs.linkStat (join target Workspace.treeName) = .ok (top, .link dest))
    (hthere : fs.pathExists (join target Workspace.treeName) = true) :
    disk.get? top ≠ some (.link dest) := by
  have hgone : (fs.removeDirectories (join target Workspace.treeName)).2.get? top ≠ some (.link dest) := by
    rw [removeDirectories, hthere, hstat]
    obtain ⟨name, parent, rfl⟩ := exists_name_of_linkStat hstat
    rw [if_neg (by decide)]
    dsimp only
    have hself : within (name :: parent) (name :: parent) = true := within_iff.2 ⟨[], rfl⟩
    rw [get?_removeTree, if_pos hself]
    exact fun hnone => by cases hnone
  cases h with
  | untouched hrefused => exact absurd (hrefused hcheck) (by rw [hsource]; exact Bool.noConfusion)
  | wiped => exact hgone
  | prepared husable hwipe =>
    exact fun hlink => hgone (((Workspace.extends_prepared hgrounded husable).link top dest).2 hlink)
  | halfway husable hwipe hfollowable hfresh hdisk =>
    obtain ⟨sources, inventory, -, -, -, hstage⟩ := hdisk
    have hextends := (@Workspace.extends_prepared settings source target fs hgrounded husable).trans
      (hstage.extends hfresh)
    exact fun hlink => hgone ((hextends.link top dest).2 hlink)

end

theorem steps_of_destinations {settings : Settings} (source target : Path) (h : settings.check = .ok ())
    {name : Name} (hname : isName name = true) :
    (∀ segment ∈ settings.toNamespace.segments, Text.isIdentifier segment = true) ∧
    Text.isIdentifier settings.functionsSegment = true ∧
    Leads (isAbsolute (join target Workspace.treeName)) (steps (join target Workspace.treeName))
      (join (Workspace.ofRoots settings source target).classDirectory name)
      (settings.toNamespace.segments ++ [name]) ∧
    Leads (isAbsolute (join target Workspace.treeName)) (steps (join target Workspace.treeName))
      (join (Workspace.ofRoots settings source target).functionDirectory name)
      (settings.toNamespace.segments ++ [settings.functionsSegment] ++ [name]) := by
  have husable := Settings.usable_of_check h
  have hjoin : ∀ {path : Path} {dir : List Name},
      Leads (isAbsolute (join target Workspace.treeName)) (steps (join target Workspace.treeName)) path dir →
      Leads (isAbsolute (join target Workspace.treeName)) (steps (join target Workspace.treeName))
        (join path name) (dir ++ [name]) := by
    intro path dir hleads
    obtain ⟨hdown, hslash⟩ := isDown_of_isName hname
    have habs := isAbsolute_of_not_mem hslash
    refine ⟨(isAbsolute_join path habs).trans hleads.absolute, ?_⟩
    rw [steps_join path habs, hleads.steps, steps_of_not_mem hslash hdown.1, List.append_assoc]
  exact ⟨fun segment hsegment => List.all_eq_true.1 husable.root segment hsegment, husable.segment,
    hjoin (Workspace.leads_classDirectory source target husable),
    hjoin (Workspace.leads_functionDirectory source target husable)⟩

/-- Whatever a conversion answers, each change that it leaves lies in the entry that the path of the target
tree names, before or behind the run, or is a directory on the way there; and of a link in that place only
the link is removed. Each file that is new or changed is the manifest or stands where the namespace and the
name of a file of the source tree put it. A conversion that is refused for its settings or for want of a
source has changed nothing and told nothing. -/
theorem convert_confined {settings : Settings} {source target : Path} {session : Session}
    (hgrounded : (session.files.removeDirectories (join target Workspace.treeName)).2.Grounded target) :
    let tree := join target Workspace.treeName
    let workspace := Workspace.ofRoots settings source target
    let run := Session.convert settings source target session
    (∀ place, run.2.files.get? place = session.files.get? place ∨ session.files.Encloses tree place ∨
      run.2.files.Encloses tree place ∨ NewOnWay session.files run.2.files tree place) ∧
    (∀ top dest, settings.check = .ok () → session.files.pathIsDirectory workspace.source = true →
      session.files.linkStat tree = .ok (top, .link dest) → session.files.pathExists tree = true →
      run.2.files.get? top ≠ some (.link dest)) ∧
    (∀ place content, run.2.files.get? place = some (.file content) →
      session.files.get? place = some (.file content) ∨
      ∃ top, run.2.files.linkStat tree = .ok (top, .directory) ∧
        (place = settings.manifestFile :: top ∨ ∃ (s : Source) (names : List Name),
          (workspace.prepared session.files).read (s.file.path workspace.source) = .ok s.content ∧
          s.destination? settings.toNamespace = some names ∧ place = names.reverse ++ top)) ∧
    (settings.check = .ok () → ∀ name, isName name = true →
      (∀ segment ∈ settings.toNamespace.segments, Text.isIdentifier segment = true) ∧
      Text.isIdentifier settings.functionsSegment = true ∧
      Leads (isAbsolute tree) (steps tree) (join workspace.classDirectory name)
        (settings.toNamespace.segments ++ [name]) ∧
      Leads (isAbsolute tree) (steps tree) (join workspace.functionDirectory name)
        (settings.toNamespace.segments ++ [settings.functionsSegment] ++ [name])) ∧
    ∀ fault, run.1 = .error fault →
      (fault.code = "config.invalid_value".toList ∨ fault.code = "source.not_found".toList) →
      run.2 = session := by
  intro tree workspace run
  have hleft := @left_of_convert settings source target session.files hgrounded session rfl
  refine ⟨hleft.get?_cases hgrounded, ?_, ?_, ?_, ?_⟩
  · intro top dest hcheck hsource hstat hthere
    exact hleft.ne_link hgrounded hcheck hsource hstat hthere
  · intro place content hget
    exact hleft.file_cases hgrounded hget
  · intro hcheck name hname
    exact steps_of_destinations source target hcheck hname
  · intro fault hfault hcode
    have hrun : Session.convert settings source target session = (.error fault, run.2) :=
      Prod.ext hfault rfl
    exact eq_of_refused hrun (not_isOperational_of_code hcode)

def relinkedDisk : FileSystem :=
  (((libraryDisk "A.php".toList (Text.toUtf8 "<?php class A".toList)).put ["t".toList] .directory).put
    ["v".toList] .directory).put ["src".toList, "t".toList] (.link "../v".toList)

/-- A library goes in place of a link, and one that is missing is refused. -/
theorem convert_confined_library :
    let tree := join "t".toList Workspace.treeName
    let workspace := Workspace.ofRoots Settings.default "s".toList "t".toList
    let run := Session.convert Settings.default "s".toList "t".toList ⟨relinkedDisk, []⟩
    let refused := Session.convert Settings.default "x".toList "t".toList ⟨relinkedDisk, []⟩
    (relinkedDisk.removeDirectories tree).2.Grounded "t".toList ∧
    (∀ place, run.2.files.get? place = relinkedDisk.get? place ∨ relinkedDisk.Encloses tree place ∨
      run.2.files.Encloses tree place ∨ NewOnWay relinkedDisk run.2.files tree place) ∧
    run.2.files.get? ["src".toList, "t".toList] ≠ some (.link "../v".toList) ∧
    (∀ place content, run.2.files.get? place = some (.file content) →
      relinkedDisk.get? place = some (.file content) ∨
      ∃ top, run.2.files.linkStat tree = .ok (top, .directory) ∧
        (place = Settings.default.manifestFile :: top ∨ ∃ (s : Source) (names : List Name),
          (workspace.prepared relinkedDisk).read (s.file.path workspace.source) = .ok s.content ∧
          s.destination? Settings.default.toNamespace = some names ∧ place = names.reverse ++ top)) ∧
    Leads (isAbsolute tree) (steps tree) (join workspace.classDirectory "A.php".toList)
      ["Facebook".toList, "Libphutil".toList, "A.php".toList] ∧
    Leads (isAbsolute tree) (steps tree) (join workspace.functionDirectory "f.php".toList)
      ["Facebook".toList, "Libphutil".toList, "Functions".toList, "f.php".toList] ∧
    refused = (.error (.sourceNotFound "x/src".toList), ⟨relinkedDisk, []⟩) := by
  intro tree workspace run refused
  have hgrounded : (relinkedDisk.removeDirectories tree).2.Grounded "t".toList :=
    grounded_of_not_mem (by decide)
  have hcheck : Settings.default.check = .ok () := by cbv
  obtain ⟨hplaces, hlink, hfiles, hsteps, -⟩ := @convert_confined Settings.default "s".toList "t".toList
    ⟨relinkedDisk, []⟩ hgrounded
  obtain ⟨-, -, hclass, -⟩ := hsteps hcheck "A.php".toList (by decide)
  obtain ⟨-, -, -, hfunction⟩ := hsteps hcheck "f.php".toList (by decide)
  have hfault : refused.1 = .error (.sourceNotFound "x/src".toList) :=
    convert_of_missing_source hcheck (by cbv)
  have hsame : refused.2 = ⟨relinkedDisk, []⟩ :=
    (@convert_confined Settings.default "x".toList "t".toList ⟨relinkedDisk, []⟩ hgrounded).2.2.2.2
      _ hfault (Or.inr rfl)
  have hsource : relinkedDisk.pathIsDirectory workspace.source = true := by cbv
  have hstat : relinkedDisk.linkStat tree = .ok (["src".toList, "t".toList], .link "../v".toList) := by cbv
  have hthere : relinkedDisk.pathExists tree = true := by cbv
  exact ⟨hgrounded, hplaces, hlink _ _ hcheck hsource hstat hthere, hfiles, hclass, hfunction,
    Prod.ext hfault hsame⟩

def linkedDisk : FileSystem :=
  (((((FileSystem.empty.put ["s".toList] .directory).put ["src".toList, "s".toList] .directory).put
    ["t".toList] .directory).put ["src".toList, "t".toList] .directory).put
    ["f".toList, "src".toList, "t".toList] (.link "../../v".toList)).put ["v".toList] (.file [1])

set_option maxRecDepth 2000 in
/-- At the end of a way up out of a missing directory the old tree is left, and the manifest is written to
where a link in it leads. -/
theorem convert_leaves_target_tree :
    ∃ report after, Session.convert
        { Settings.default with filePattern := "x".toList, manifestFile := "f".toList }
        "s".toList "m/../t".toList ⟨linkedDisk, []⟩ = (.ok report, after) ∧
      linkedDisk.get? ["v".toList] = some (.file [1]) ∧ after.files.get? ["v".toList] = some (.file []) ∧
      ¬ linkedDisk.Encloses (join "m/../t".toList Workspace.treeName) ["v".toList] ∧
      ¬ after.files.Encloses (join "m/../t".toList Workspace.treeName) ["v".toList] := by
  obtain ⟨report, progress, hrun⟩ := @convert_of_no_files
    { Settings.default with filePattern := "x".toList, manifestFile := "f".toList }
    "s".toList "m/../t".toList ⟨linkedDisk, []⟩ ["v".toList]
    (by cbv) (by cbv) (by cbv) (by cbv) (by cbv) (by cbv)
  refine ⟨report, _, hrun, by cbv, by cbv, ?_, ?_⟩
  · rintro ⟨top, found, hstat, -⟩
    have hmissing : linkedDisk.linkStat (join "m/../t".toList Workspace.treeName) = .error .notFound := by cbv
    rw [hmissing] at hstat
    cases hstat
  · rintro ⟨top, found, hstat, hin⟩
    have htree : (((Workspace.ofRoots
        { Settings.default with filePattern := "x".toList, manifestFile := "f".toList }
        "s".toList "m/../t".toList).prepared linkedDisk).put ["v".toList] (.file [])).linkStat
        (join "m/../t".toList Workspace.treeName) = .ok (["src".toList, "t".toList], .directory) := by cbv
    rw [htree] at hstat
    obtain ⟨rfl, -⟩ := Prod.mk.inj (Except.ok.inj hstat)
    revert hin
    decide

end Namespacing
