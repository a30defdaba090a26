import Namespacing.Proofs.Conversion.Outcomes
import Namespacing.Proofs.Conversion.Places
import Namespacing.Proofs.FileSystem.Descents
set_option autoImplicit false

/-!
# The phases of a conversion

The harvest copies the source files one after the other and keeps up with the plan of the files so far;
the revision then replaces each copy once. A phase that fails has changed nothing outside of the target
tree, and in it there are only the directories of the namespace and files at places of the plan.
-/

open Namespacing.Path Namespacing.FileSystem

namespace Namespacing

namespace Ensures

theorem readText {pre fails : FileSystem → Prop} (path : Path) (context : Text)
    (hfails : ∀ disk, pre disk → fails disk) :
    Ensures (Storage.readText path context) pre
      (fun read disk => ∃ content, read = Encoding.decode content ∧ disk.read path = .ok content ∧ pre disk)
      fails := by
  unfold Storage.readText
  refine (inContext_look context _ hfails).bind fun content => pure ?_
  rintro disk ⟨hdisk, hread⟩
  exact ⟨content, rfl, hread, hdisk⟩

theorem writeText {pre post fails : FileSystem → Prop} {path : Path} {text : Text} {encoding : Encoding}
    {context : Text} (hfails : ∀ disk, pre disk → fails disk)
    (h : ∀ content disk disk', encoding.encode? text = some content → pre disk →
      disk.write path content = .ok disk' → post disk') :
    Ensures (Storage.writeText path text encoding context) pre (fun _ => post) fails := by
  unfold Storage.writeText
  split
  · rename_i content hcontent
    exact inContext_change context hfails fun disk disk' => h content disk disk' hcontent
  · exact throw hfails

end Ensures

section

variable {mid : FileSystem} {absolute : Bool} {base : List Text} {first : List Name} {k : Nat}
  {top : Location} {inventory : Inventory} {fails : FileSystem → Prop}
  (hfresh : Fresh mid absolute base first k top)
  (hfails : ∀ disk, Stage mid first top inventory disk → fails disk)

include hfresh hfails

section

variable {path : Path} {dir : List Name} (hleads : Leads absolute base path dir) {name : Name}
  (hname : isName name = true)

include hleads hname

theorem ensures_copyFile {before : List Text} {x : Text} {source : Path} {origin : Location}
    {content : Bytes} {inventory' : Inventory} (hsegments : segments path = before ++ [x])
    (hx : isIdle x = false) (hsource : mid.stat source = .ok (origin, .file content))
    (hmake : ∀ disk disk', Stage mid first top inventory disk →
      disk.createDirectories path = (.ok (), disk') → Stage mid first top inventory' disk')
    (hstop : ∀ disk disk' error, Stage mid first top inventory disk →
      disk.createDirectories path = (.error error, disk') → disk' = disk)
    (hfails' : ∀ disk, Stage mid first top inventory' disk → fails disk) (hdir : dir <+: inventory'.line) :
    Ensures (Storage.copyFile source (join path name)) (Stage mid first top inventory)
      (fun _ => Stage mid first top (inventory'.store (dir ++ [name]) content)) fails := by
  unfold Storage.copyFile
  rw [parent?_join hsegments hx hname]
  have hmade : Ensures (Storage.makeDirectories path) (Stage mid first top inventory)
      (fun _ => Stage mid first top inventory') fails := by
    refine Ensures.inContext_attempt _ (fun disk hdisk => ?_) hmake
    rcases hcreate : disk.createDirectories path with ⟨error | _, disk'⟩
    · rw [hstop disk disk' error hdisk hcreate]
      exact hfails disk hdisk
    · exact hfails' disk' (hmake disk disk' hdisk hcreate)
  refine hmade.bind fun _ => Ensures.inContext_change _ hfails' ?_
  intro disk disk' hdisk hcopy
  exact hdisk.copy hfresh hleads hdir hname hsource hcopy

theorem ensures_reviseInPlace (change : Text → Text) (hdir : dir <+: inventory.line) :
    Ensures (reviseInPlace change (join path name)) (Stage mid first top inventory)
      (fun _ disk => ∃ content revised, inventory.files (dir ++ [name]) = some content ∧
        (Encoding.decode content).2.encode? (change (Encoding.decode content).1) = some revised ∧
        Stage mid first top (inventory.store (dir ++ [name]) revised) disk) fails := by
  unfold reviseInPlace
  refine (Ensures.readText _ _ hfails).bind fun read => ?_
  refine Ensures.of_exists fun content => Ensures.of_and ?_
  rintro rfl
  refine Ensures.writeText (fun disk hdisk => hfails disk hdisk.2) ?_
  rintro revised disk disk' hrevised ⟨hread, hdisk⟩ hwrite
  exact ⟨content, revised, hdisk.read hfresh hleads hdir hname hread, hrevised,
    hdisk.write hfresh hleads hdir hname hwrite⟩

end

end

theorem run_sourceFiles (settings : Settings) (path : Path) (session : Session) :
    (sourceFiles settings path : ExceptT Fault SessionM _).run session =
      match settings.filesIn (session.files.tree path) with
      | .ok files => (.ok files, session)
      | .error obstacle => (.error (obstacle.fault path), session) := by
  change (match settings.filesIn (session.files.tree path) with
    | .ok files => Pure.pure (Except.ok files)
    | .error obstacle => Pure.pure (Except.error (obstacle.fault path)) :
    SessionM (Except Fault (List SourceFile))) session = _
  cases settings.filesIn (session.files.tree path) <;> rfl

theorem ensures_sourceFiles {pre fails : FileSystem → Prop} (settings : Settings) (path : Path)
    (hfails : ∀ disk, pre disk → fails disk) :
    Ensures (sourceFiles settings path) pre
      (fun files disk => pre disk ∧ settings.filesIn (disk.tree path) = .ok files) fails := by
  intro session hsession
  rw [run_sourceFiles]
  cases hfiles : settings.filesIn (session.files.tree path) with
  | ok files => exact ⟨hsession, hfiles⟩
  | error obstacle => exact hfails _ hsession

theorem Settings.exists_of_mem_filesIn {settings : Settings} {disk : FileSystem} {path : Path}
    {files : List SourceFile} (h : settings.filesIn (disk.tree path) = .ok files) {file : SourceFile}
    (hfile : file ∈ files) : isName file.name = true ∧ disk.pathIsFile (file.path path) = true := by
  unfold filesIn at h
  split at h
  · rename_i found hfound
    cases h
    obtain ⟨names, hnames, rfl⟩ := List.mem_map.1 hfile
    obtain ⟨hne, hproper, hthere⟩ := lists_of_files hfound names hnames
    refine ⟨hproper _ ?_, hthere⟩
    change names.getLast?.getD [] ∈ names
    rw [List.getLast?_eq_some_getLast hne]
    exact List.getLast_mem hne
  · cases h

/-- A tree on the way: it has the directories of the namespace, and every file is the manifest or stands
where the plan of some files of the source tree puts one of them. -/
def Halfway (settings : Settings) (workspace : Workspace) (mid : FileSystem) (top : Location)
    (disk : FileSystem) : Prop :=
  ∃ (sources : List Source) (inventory : Inventory),
    (∀ source ∈ sources, mid.read (source.file.path workspace.source) = .ok source.content) ∧
    inventory.line = (Plan.mk settings sources).line ∧
    (∀ names content, inventory.files names = some content → names = [settings.manifestFile] ∨
      ∃ source ∈ sources, source.destination? settings.toNamespace = some names) ∧
    Stage mid settings.toNamespace.segments top inventory disk

theorem Plan.exists_of_last? {plan : Plan} {names : List Name} {source : Source}
    (h : plan.last? names = some source) :
    ∃ source ∈ plan.sources, source.destination? plan.ns = some names :=
  ⟨source, Plan.mem_of_last? h⟩

theorem halfway_copies {plan : Plan} {workspace : Workspace} {mid disk : FileSystem} {top : Location}
    (hread : ∀ source ∈ plan.sources, mid.read (source.file.path workspace.source) = .ok source.content)
    (h : Stage mid plan.ns.segments top plan.copies disk) :
    Halfway plan.settings workspace mid top disk := by
  refine ⟨plan.sources, plan.copies, hread, rfl, fun names content hfile => ?_, h⟩
  obtain ⟨source, hlast, -⟩ := Option.map_eq_some_iff.1 hfile
  exact Or.inr (Plan.exists_of_last? hlast)

theorem halfway_revised {plan : Plan} {workspace : Workspace} {mid disk : FileSystem} {top : Location}
    {done : List (List Name)}
    (hread : ∀ source ∈ plan.sources, mid.read (source.file.path workspace.source) = .ok source.content)
    (h : Stage mid plan.ns.segments top (plan.revised done) disk) :
    Halfway plan.settings workspace mid top disk := by
  refine ⟨plan.sources, plan.revised done, hread, rfl, fun names content hfile => ?_, h⟩
  obtain ⟨source, hlast, -⟩ := Option.bind_eq_some_iff.1 hfile
  exact Or.inr (Plan.exists_of_last? hlast)

theorem halfway_result {plan : Plan} {workspace : Workspace} {mid disk : FileSystem} {top : Location}
    (hread : ∀ source ∈ plan.sources, mid.read (source.file.path workspace.source) = .ok source.content)
    (h : Stage mid plan.ns.segments top plan.result disk) :
    Halfway plan.settings workspace mid top disk := by
  refine ⟨plan.sources, plan.result, hread, rfl, fun names content hfile => ?_, h⟩
  by_cases hmanifest : names = [plan.settings.manifestFile]
  · exact Or.inl hmanifest
  · obtain ⟨source, hlast, -⟩ := Option.bind_eq_some_iff.1 ((if_neg hmanifest).symm.trans hfile)
    exact Or.inr (Plan.exists_of_last? hlast)

/-- The harvest and the disk are those of the plan of the files so far. -/
structure Harvested (settings : Settings) (workspace : Workspace) (mid : FileSystem) (top : Location)
    (done : List Source) (harvest : Harvest) (disk : FileSystem) : Prop where
  harvest : harvest = (Plan.mk settings done).harvest workspace
  proper : (Plan.mk settings done).Proper
  read : ∀ source ∈ done, mid.read (source.file.path workspace.source) = .ok source.content
  stage : Stage mid settings.toNamespace.segments top (Plan.mk settings done).copies disk

section

variable {plan : Plan} {source target : Path} {mid : FileSystem} {k : Nat} {top origin : Location}
  {s : Source} {path : Path} (husable : plan.settings.Usable)
  (hfresh : Fresh mid (isAbsolute (Workspace.ofRoots plan.settings source target).target)
    (steps (Workspace.ofRoots plan.settings source target).target) plan.ns.segments k top)
  (hname : isName s.file.name = true) (hstat : mid.stat path = .ok (origin, .file s.content))
  (hread : ∀ s' ∈ (plan.add s).sources,
    mid.read (s'.file.path (Workspace.ofRoots plan.settings source target).source) = .ok s'.content)

include husable hfresh hname hstat hread

omit husable hfresh hname hstat in
theorem halfway_copying {disk : FileSystem} {line : List Name} (hline : line = (plan.add s).line)
    (h : Stage mid plan.ns.segments top { plan.copies with line := line } disk) :
    Halfway plan.settings (Workspace.ofRoots plan.settings source target) mid top disk := by
  refine ⟨(plan.add s).sources, _, hread, hline, fun names content hfile => ?_, h⟩
  obtain ⟨last, hlast, -⟩ := Option.map_eq_some_iff.1 hfile
  obtain ⟨found, hfound, hdestination⟩ := Plan.exists_of_last? hlast
  exact Or.inr ⟨found, List.mem_append_left _ hfound, hdestination⟩

theorem ensures_copyClass (hrole : s.role = .classBearing) :
    Ensures
      (Storage.copyFile path
        (join (Workspace.ofRoots plan.settings source target).classDirectory s.file.name))
      (Stage mid plan.ns.segments top plan.copies)
      (fun _ => Stage mid plan.ns.segments top (plan.add s).copies)
      (Halfway plan.settings (Workspace.ofRoots plan.settings source target) mid top) := by
  obtain ⟨before, x, hsegments, hx⟩ := Workspace.exists_segments_classDirectory source target husable
  have hleads := Workspace.leads_classDirectory source target husable
  have hfirst : plan.ns.segments <+: plan.copies.line := plan.segments_prefix_line
  have hline : (plan.add s).line = plan.line := by
    rw [Plan.line_add, if_neg (by rw [hrole]; decide)]
  have hdestination : s.destination? plan.ns = some (plan.ns.segments ++ [s.file.name]) := by
    rw [Source.destination?, hrole]
    rfl
  have hfails : ∀ disk, Stage mid plan.ns.segments top plan.copies disk →
      Halfway plan.settings (Workspace.ofRoots plan.settings source target) mid top disk :=
    fun disk => halfway_copies fun s' hs' => hread s' (List.mem_append_left _ hs')
  rw [Plan.copies_add hdestination, hline]
  refine ensures_copyFile hfresh hfails hleads hname hsegments hx hstat ?_ ?_ hfails hfirst
  · intro disk disk' hdisk hcreate
    exact hdisk.create_same hfresh hsegments hx hleads hfirst hcreate
  · intro disk disk' error hdisk hcreate
    obtain ⟨init, last, hlast, hinit, hdown⟩ := Workspace.exists_last_segment husable
    exact hdisk.create_fails hfresh hsegments hx (by rw [← hlast]; exact hleads)
      (hinit.trans hfirst) hdown hcreate

theorem ensures_copyFunction (hrole : s.role = .functionBearing) :
    Ensures
      (Storage.copyFile path
        (join (Workspace.ofRoots plan.settings source target).functionDirectory s.file.name))
      (Stage mid plan.ns.segments top plan.copies)
      (fun _ => Stage mid plan.ns.segments top (plan.add s).copies)
      (Halfway plan.settings (Workspace.ofRoots plan.settings source target) mid top) := by
  obtain ⟨before, hsegments⟩ := Workspace.exists_segments_functionDirectory source target husable
  have hleads := Workspace.leads_functionDirectory source target husable
  have hdown := (isDown_of_isName (isName_of_isIdentifier husable.segment)).1
  have hdestination : s.destination? plan.ns =
      some (plan.ns.segments ++ [plan.ns.functionsSegment] ++ [s.file.name]) := by
    rw [Source.destination?, hrole]
    rfl
  have hfails : ∀ disk, Stage mid plan.ns.segments top plan.copies disk →
      Halfway plan.settings (Workspace.ofRoots plan.settings source target) mid top disk :=
    fun disk => halfway_copies fun s' hs' => hread s' (List.mem_append_left _ hs')
  have hfails' : ∀ disk, Stage mid plan.ns.segments top
      { plan.copies with line := plan.ns.segments ++ [plan.ns.functionsSegment] } disk →
      Halfway plan.settings (Workspace.ofRoots plan.settings source target) mid top disk :=
    fun disk => halfway_copying hread (by rw [Plan.line_add, if_pos hrole])
  rw [Plan.copies_add hdestination, Plan.line_add, if_pos hrole]
  refine ensures_copyFile hfresh hfails hleads hname hsegments hdown.1 hstat ?_ ?_ hfails' List.prefix_rfl
  · intro disk disk' hdisk hcreate
    -- The directory of the functions is made for the first of them.
    rcases plan.line_cases with hnew | hthere
    · have hline : plan.copies.line = plan.ns.segments := hnew
      have hmade := hdisk.create_next hfresh hsegments hdown.1 (by rw [hline]; exact hleads) hdown hcreate
      rw [hline] at hmade
      exact hmade
    · have hline : plan.copies.line = plan.ns.segments ++ [plan.ns.functionsSegment] := hthere
      have hmade := hdisk.create_same hfresh hsegments hdown.1 hleads
        ⟨[], (List.append_nil _).trans hline.symm⟩ hcreate
      rw [← hline]
      exact hmade
  · intro disk disk' error hdisk hcreate
    exact hdisk.create_fails hfresh hsegments hdown.1 hleads plan.segments_prefix_line hdown hcreate

end

section

variable {settings : Settings} {source target : Path} {mid : FileSystem} {k : Nat} {top : Location}
  (husable : settings.Usable)
  (hfresh : Fresh mid (isAbsolute (Workspace.ofRoots settings source target).target)
    (steps (Workspace.ofRoots settings source target).target) settings.toNamespace.segments k top)

include husable hfresh

theorem ensures_harvestFile {done : List Source} {harvest : Harvest} {file : SourceFile}
    (hname : isName file.name = true)
    (hfile : mid.pathIsFile (file.path (Workspace.ofRoots settings source target).source) = true) :
    Ensures (harvestFile SessionM.tell (Workspace.ofRoots settings source target) harvest file)
      (Harvested settings (Workspace.ofRoots settings source target) mid top done harvest)
      (fun harvest' disk => ∃ s, Source.file s = file ∧
        Harvested settings (Workspace.ofRoots settings source target) mid top (done ++ [s]) harvest' disk)
      (Halfway settings (Workspace.ofRoots settings source target) mid top) := by
  unfold harvestFile
  have hfails : ∀ disk, Harvested settings (Workspace.ofRoots settings source target) mid top done harvest disk →
      Halfway settings (Workspace.ofRoots settings source target) mid top disk :=
    fun disk hdisk => @halfway_copies ⟨settings, done⟩ _ _ _ _ hdisk.read hdisk.stage
  refine (Ensures.readText _ _ hfails).bind fun read => ?_
  refine Ensures.of_exists fun content => Ensures.of_and ?_
  rintro rfl
  refine Ensures.assuming (fun disk hdisk => And.intro (hdisk.2.stage.stat_of_read hfresh hfile hdisk.1)
    (And.intro hdisk.2.harvest (And.intro hdisk.2.proper hdisk.2.read))) ?_
  rintro ⟨⟨origin, hstat⟩, rfl, hproper, hread⟩
  have hthere : mid.read (file.path (Workspace.ofRoots settings source target).source) = .ok content := by
    rw [FileSystem.read, hstat]
  let s : Source := ⟨file, content⟩
  let plan : Plan := ⟨settings, done⟩
  have hproper' : (plan.add s).Proper := by
    intro s' hs'
    rcases List.mem_append.1 hs' with hs' | hs'
    · exact hproper s' hs'
    · rw [List.mem_singleton.1 hs']
      exact hname
  have hread' : ∀ s' ∈ (plan.add s).sources, mid.read (s'.file.path
      (Workspace.ofRoots settings source target).source) = .ok s'.content := by
    intro s' hs'
    rcases List.mem_append.1 hs' with hs' | hs'
    · exact hread s' hs'
    · rw [List.mem_singleton.1 hs']
      exact hthere
  dsimp only
  split
  · rename_i hrole
    have hcopy := @ensures_copyClass plan source target mid k top origin s _ husable hfresh hname hstat hread'
      hrole
    refine (hcopy.consequence (fun _ hdisk => hdisk.2.stage) fun _ _ => id).bind fun _ =>
      Ensures.pure fun disk hdisk => ?_
    exact ⟨s, rfl, (Plan.harvest_add_class hproper' hrole).symm, hproper', hread', hdisk⟩
  · rename_i hrole
    have hcopy := @ensures_copyFunction plan source target mid k top origin s _ husable hfresh hname hstat
      hread' hrole
    refine (hcopy.consequence (fun _ hdisk => hdisk.2.stage) fun _ _ => id).bind fun _ =>
      Ensures.pure fun disk hdisk => ?_
    exact ⟨s, rfl, (Plan.harvest_add_function hproper' hrole).symm, hproper', hread', hdisk⟩
  · rename_i hrole
    refine (Ensures.tell _).bind fun _ => Ensures.pure ?_
    rintro disk ⟨-, hdisk⟩
    have hharvest := @Plan.harvest_add_unclassified plan s
      (Workspace.ofRoots settings source target) hrole
    refine ⟨s, rfl, hharvest.symm, hproper', hread', ?_⟩
    have hcopies := @Plan.copies_add_of_none plan s hrole
    change Stage mid settings.toNamespace.segments top (plan.add s).copies disk
    rw [hcopies]
    exact hdisk.stage

theorem ensures_harvest {files : List SourceFile}
    (hfiles : settings.filesIn (mid.tree (Workspace.ofRoots settings source target).source) = .ok files) :
    Ensures
      (files.foldlM (harvestFile SessionM.tell (Workspace.ofRoots settings source target))
        (Harvest.start settings.toNamespace settings))
      (Stage mid settings.toNamespace.segments top (Plan.mk settings []).copies)
      (fun harvest disk => ∃ sources, sources.map Source.file = files ∧
        Harvested settings (Workspace.ofRoots settings source target) mid top sources harvest disk)
      (Halfway settings (Workspace.ofRoots settings source target) mid top) := by
  have hloop := @Ensures.foldlM Harvest Source SourceFile
    (harvestFile SessionM.tell (Workspace.ofRoots settings source target)) Source.file
    (Harvested settings (Workspace.ofRoots settings source target) mid top)
    (Halfway settings (Workspace.ofRoots settings source target) mid top) files
    (fun done harvest file hfile => by
      obtain ⟨hname, hthere⟩ := Settings.exists_of_mem_filesIn hfiles hfile
      exact ensures_harvestFile husable hfresh hname hthere)
    [] (Harvest.start settings.toNamespace settings)
  refine hloop.consequence (fun disk hdisk => ?_) fun _ _ => id
  exact ⟨Plan.harvest_start settings _, by simp [Plan.Proper], by simp, hdisk⟩

end

structure Revised (plan : Plan) (mid : FileSystem) (top : Location) (done : List (List Name))
    (disk : FileSystem) : Prop where
  stage : Stage mid plan.ns.segments top (plan.revised done) disk
  complete : ∀ names ∈ done, ∃ source content, plan.last? names = some source ∧
    source.revised? plan.revision = some content

namespace Plan

theorem functionsSegment_mem_line {plan : Plan} {name : Name} (h : name ∈ plan.names .functionBearing) :
    plan.line = plan.ns.segments ++ [plan.ns.functionsSegment] := by
  obtain ⟨source, hsource, hrole, -⟩ := mem_names.1 h
  have hmem : source ∈ plan.bearing .functionBearing := List.mem_filter.2 ⟨hsource, by simp [hrole]⟩
  rw [line, if_neg]
  rw [List.isEmpty_iff]
  exact List.ne_nil_of_mem hmem

theorem isName_of_mem_names {plan : Plan} (h : plan.Proper) {role : FileRole} {name : Name}
    (hname : name ∈ plan.names role) : isName name = true := by
  obtain ⟨source, hsource, -, rfl⟩ := mem_names.1 hname
  exact h source hsource

/-- A file that was copied and not yet revised is the last one that goes there. -/
theorem last?_of_files {plan : Plan} {done : List (List Name)} {names : List Name} {content : Bytes}
    (hnames : names ∉ done) (h : (plan.revised done).files names = some content) :
    ∃ source, plan.last? names = some source ∧ source.content = content := by
  change ((plan.last? names).bind fun source => if names ∈ done then _ else some source.content) = _ at h
  cases hlast : plan.last? names with
  | none =>
    rw [hlast] at h
    cases h
  | some source =>
    rw [hlast, Option.bind_some, if_neg hnames] at h
    exact ⟨source, rfl, Option.some.inj h⟩

end Plan

section

variable {plan : Plan} {source target : Path} {mid : FileSystem} {k : Nat} {top : Location}
  (hproper : plan.Proper) (husable : plan.settings.Usable)
  (hfresh : Fresh mid (isAbsolute (Workspace.ofRoots plan.settings source target).target)
    (steps (Workspace.ofRoots plan.settings source target).target) plan.ns.segments k top)
  (hread : ∀ s ∈ plan.sources,
    mid.read (s.file.path (Workspace.ofRoots plan.settings source target).source) = .ok s.content)

include hfresh hread

theorem ensures_revise {path : Path} {dir : List Name} {role : FileRole} {name : Name}
    {change : Text → Text} {done : List (List Name)}
    (hleads : Leads (isAbsolute (Workspace.ofRoots plan.settings source target).target)
      (steps (Workspace.ofRoots plan.settings source target).target) path dir)
    (hdir : dir <+: plan.line) (hname : isName name = true)
    (hdestination : plan.ns.destination? role name = some (dir ++ [name])) (hnew : dir ++ [name] ∉ done)
    (hchange : ∀ s : Source, s.role = role → s.file.name = name →
      change s.text = s.revisedText plan.revision) :
    Ensures (reviseInPlace change (join path name)) (Revised plan mid top done)
      (fun _ => Revised plan mid top (done ++ [dir ++ [name]]))
      (Halfway plan.settings (Workspace.ofRoots plan.settings source target) mid top) := by
  refine Ensures.assuming (fun disk hdisk => hdisk.complete) fun hdone => ?_
  have hrevise := @ensures_reviseInPlace mid _ _ _ k top (plan.revised done) _ hfresh
    (fun disk => halfway_revised hread) path dir hleads name hname change hdir
  refine hrevise.consequence (fun disk hdisk => hdisk.stage) ?_
  rintro _ disk ⟨content, revised, hfiles, hrevised, hstage⟩
  obtain ⟨s, hlast, rfl⟩ := Plan.last?_of_files hnew hfiles
  obtain ⟨hrole, hs⟩ := Namespace.destination?_injective (Plan.mem_of_last? hlast).2 hdestination
  have hcontent : s.revised? plan.revision = some revised := by
    rw [Source.revised?, ← hchange s hrole hs]
    exact hrevised
  refine ⟨?_, fun names hnames => ?_⟩
  · rw [Plan.revised_concat hlast hcontent]
    exact hstage
  · rcases List.mem_append.1 hnames with hnames | hnames
    · exact hdone names hnames
    · rw [List.mem_singleton.1 hnames]
      exact ⟨s, revised, hlast, hcontent⟩

include hproper husable

theorem ensures_reviseFunctions :
    Ensures
      ((plan.harvest (Workspace.ofRoots plan.settings source target)).functionFiles.forM
        plan.revision.functionFile)
      (Revised plan mid top []) (fun _ => Revised plan mid top plan.functionPlaces)
      (Halfway plan.settings (Workspace.ofRoots plan.settings source target) mid top) := by
  refine @Ensures.forM Name Path _ _ (fun done => Revised plan mid top (done.map _)) _ _ ?_
  intro done name rest hnames
  have hmem : name ∈ plan.names .functionBearing := by simp [hnames]
  have hname := Plan.isName_of_mem_names hproper hmem
  have hline := Plan.functionsSegment_mem_line hmem
  have hnodup := plan.nodup_names .functionBearing
  rw [hnames, List.nodup_append] at hnodup
  have hnew : name ∉ done := fun h => hnodup.2.2 name h name List.mem_cons_self rfl
  obtain ⟨hdown, hslash⟩ := isDown_of_isName hname
  obtain ⟨before, hsegments, -⟩ :=
    exists_segments_join (Workspace.ofRoots plan.settings source target).functionDirectory hslash
  have hdestination : plan.ns.destination? .functionBearing name =
      some (plan.ns.segments ++ [plan.ns.functionsSegment] ++ [name]) := rfl
  rw [List.map_append]
  refine ensures_revise hfresh hread (Workspace.leads_functionDirectory source target husable)
    ⟨[], (List.append_nil _).trans hline.symm⟩ hname hdestination (Plan.concat_not_mem_map _ hnew) ?_
  intro s hrole hs
  rw [Source.revisedText, hrole, stem_of_segments hsegments hdown, ← hs]
  rfl

theorem ensures_reviseClasses :
    Ensures
      ((plan.harvest (Workspace.ofRoots plan.settings source target)).classFiles.forM
        plan.revision.classFile)
      (Revised plan mid top plan.functionPlaces)
      (fun _ => Revised plan mid top (plan.functionPlaces ++ plan.classPlaces))
      (Halfway plan.settings (Workspace.ofRoots plan.settings source target) mid top) := by
  have hloop := @Ensures.forM Name Path plan.revision.classFile
    (join (Workspace.ofRoots plan.settings source target).classDirectory)
    (fun done => Revised plan mid top (plan.functionPlaces ++ done.map fun name => plan.ns.segments ++ [name]))
    (Halfway plan.settings (Workspace.ofRoots plan.settings source target) mid top)
    (plan.names .classBearing) ?_
  · rw [List.map_nil, List.append_nil] at hloop
    exact hloop
  · intro done name rest hnames
    have hmem : name ∈ plan.names .classBearing := by simp [hnames]
    have hnodup := plan.nodup_names .classBearing
    rw [hnames, List.nodup_append] at hnodup
    have hnew : name ∉ done := fun h => hnodup.2.2 name h name List.mem_cons_self rfl
    have hdestination : plan.ns.destination? .classBearing name = some (plan.ns.segments ++ [name]) := rfl
    rw [List.map_append, ← List.append_assoc]
    refine ensures_revise hfresh hread (Workspace.leads_classDirectory source target husable)
      plan.segments_prefix_line (Plan.isName_of_mem_names hproper hmem) hdestination ?_ ?_
    · rw [List.mem_append, not_or]
      exact ⟨plan.not_mem_functionPlaces name, Plan.concat_not_mem_map _ hnew⟩
    · intro s hrole _
      rw [Source.revisedText, hrole]

theorem ensures_reviseCopies :
    Ensures
      (reviseCopies (Workspace.ofRoots plan.settings source target)
        (plan.harvest (Workspace.ofRoots plan.settings source target)))
      (Stage mid plan.ns.segments top plan.copies)
      (fun _ => Revised plan mid top (plan.functionPlaces ++ plan.classPlaces))
      (Halfway plan.settings (Workspace.ofRoots plan.settings source target) mid top) := by
  unfold reviseCopies
  have hfunctions := ensures_reviseFunctions hproper husable hfresh hread
  refine Ensures.bind (hfunctions.consequence (fun disk hdisk => ?_) fun _ _ => id) fun _ =>
    ensures_reviseClasses hproper husable hfresh hread
  exact ⟨by rw [Plan.revised_nil]; exact hdisk, by simp⟩

omit hproper in
theorem ensures_writeManifest :
    Ensures
      (plan.manifest.writeTo (join (Workspace.ofRoots plan.settings source target).target
        plan.settings.manifestFile))
      (Revised plan mid top (plan.functionPlaces ++ plan.classPlaces))
      (fun _ disk => Stage mid plan.ns.segments top plan.result disk ∧
        ∀ names source, plan.last? names = some source → (source.revised? plan.revision).isSome)
      (Halfway plan.settings (Workspace.ofRoots plan.settings source target) mid top) := by
  refine Ensures.inContext_change _ (fun disk hdisk => halfway_revised hread hdisk.stage) ?_
  intro disk disk' hdisk hwrite
  have hname : isName plan.settings.manifestFile = true := by
    unfold FileSystem.write at hwrite
    split at hwrite
    · cases hwrite
    · rename_i place hplace
      exact Settings.isName_of_writablePlace husable.manifest hplace
  refine ⟨?_, fun names source hlast => ?_⟩
  · rw [Plan.result_eq fun names source => Plan.mem_places_of_last?]
    have hleads : Leads _ _ (Workspace.ofRoots plan.settings source target).target [] :=
      ⟨rfl, (List.append_nil _).symm⟩
    exact hdisk.stage.write hfresh hleads List.nil_prefix hname hwrite
  · obtain ⟨source', content, hlast', hcontent⟩ :=
      hdisk.complete names (Plan.mem_places_of_last? hlast)
    rw [hlast] at hlast'
    cases hlast'
    rw [hcontent]
    rfl

end

end Namespacing
