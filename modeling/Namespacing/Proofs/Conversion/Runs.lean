import Mathlib
import Namespacing.Proofs.Conversion.Convert
set_option autoImplicit false

-- Small disks are evaluated with equations of lists, bytes and orders that stand in many modules of
-- Mathlib; the modules that import this one share them.
open Namespacing.Path Namespacing.FileSystem

namespace Namespacing

variable {α β : Type}

/-- A computation gives a value and leaves a session. -/
def Yields (action : ExceptT Fault SessionM α) (session : Session) (value : α) (after : Session) : Prop :=
  action.run session = (.ok value, after)

namespace Yields

variable {session middle after : Session} {context : Text}

protected theorem run_bind {action : ExceptT Fault SessionM α} {next : α → ExceptT Fault SessionM β} {value : α}
    (h : Yields action session value middle) : (action >>= next).run session = (next value).run middle := by
  rw [run_bind, h]

theorem bind {action : ExceptT Fault SessionM α} {next : α → ExceptT Fault SessionM β} {value : α}
    {result : β} (h : Yields action session value middle) (hnext : Yields (next value) middle result after) :
    Yields (action >>= next) session result after := h.run_bind.trans hnext

theorem exists_bind {action : ExceptT Fault SessionM α} {next : α → ExceptT Fault SessionM β} {value : α}
    (h : Yields action session value middle) (hnext : ∃ result, Yields (next value) middle result after) :
    ∃ result, Yields (action >>= next) session result after :=
  hnext.imp fun _ => h.bind

theorem pure (value : α) : Yields (Pure.pure value) session value session := rfl

theorem check {settings : Settings} (hcheck : settings.check = .ok ()) :
    Yields (ExceptT.mk (Pure.pure settings.check)) session () session := by
  rw [hcheck]
  rfl

theorem tell (progress : Progress) :
    Yields (liftM (SessionM.tell progress)) session ()
      ⟨session.files, session.progress ++ [progress]⟩ := rfl

theorem look (view : FileSystem → α) :
    Yields (liftM (SessionM.look view)) session (view session.files) session := rfl

theorem attempt {operation : FileSystem → Except IoError Unit × FileSystem}
    (h : (operation session.files).1 = .ok ()) :
    Yields (Storage.inContext context (SessionM.attempt operation)) session ()
      ⟨(operation session.files).2, session.progress⟩ := by
  rw [Yields, run_inContext, SessionM.attempt]
  rcases hoperation : operation session.files with ⟨_ | value, disk⟩
  · rw [hoperation] at h
    cases h
  · rfl

theorem change {operation : FileSystem → Except IoError FileSystem} {disk : FileSystem}
    (h : operation session.files = .ok disk) :
    Yields (Storage.inContext context (SessionM.change operation)) session ()
      ⟨disk, session.progress⟩ := by
  rw [Yields, run_inContext, SessionM.change, h]

theorem readText {path : Path} {content : Bytes} (h : session.files.read path = .ok content) :
    Yields (Storage.readText path context) session (Encoding.decode content) session := by
  have hlook : Yields (Storage.inContext context (SessionM.look (·.read path))) session content session := by
    rw [Yields, run_inContext, SessionM.look, h]
  exact hlook.bind (pure _)

theorem writeText {path : Path} {text : Text} {encoding : Encoding} {content : Bytes} {place : Location}
    (hcontent : encoding.encode? text = some content)
    (hplace : session.files.writablePlace path = .ok place) :
    Yields (Storage.writeText path text encoding context) session ()
      ⟨session.files.put place (.file content), session.progress⟩ := by
  rw [Storage.writeText, hcontent]
  apply change
  rw [FileSystem.write, hplace]

theorem copyFile {path destination parent : Path} {disk : FileSystem} (hparent : parent? destination = some parent)
    (hmake : (session.files.createDirectories parent).1 = .ok ())
    (hcopy : (session.files.createDirectories parent).2.copy path destination = .ok disk) :
    Yields (Storage.copyFile path destination) session () ⟨disk, session.progress⟩ := by
  unfold Storage.copyFile
  rw [hparent]
  exact (attempt hmake).bind (change hcopy)

theorem reviseInPlace {path : Path} {revise : Text → Text} {content revised : Bytes} {place : Location}
    (hread : session.files.read path = .ok content)
    (hrevised : (Encoding.decode content).2.encode? (revise (Encoding.decode content).1) = some revised)
    (hplace : session.files.writablePlace path = .ok place) :
    Yields (Namespacing.reviseInPlace revise path) session ()
      ⟨session.files.put place (.file revised), session.progress⟩ :=
  (readText hread).bind (writeText hrevised hplace)

end Yields

section

variable {settings : Settings} {source target : Path} {session : Session}

theorem convert_yields {files : List SourceFile} {harvest : Harvest} {first second : Session}
    {place : Location} (hcheck : settings.check = .ok ())
    (hsource : session.files.pathIsDirectory (Workspace.ofRoots settings source target).source = true)
    (hwipe : (session.files.removeDirectories (Workspace.ofRoots settings source target).target).1 = .ok ())
    (hmake : ((session.files.removeDirectories
      (Workspace.ofRoots settings source target).target).2.createDirectories
      (Workspace.ofRoots settings source target).classDirectory).1 = .ok ())
    (hfiles : settings.filesIn (((Workspace.ofRoots settings source target).prepared session.files).tree
      (Workspace.ofRoots settings source target).source) = .ok files)
    (hharvest : Yields (files.foldlM (harvestFile SessionM.tell (Workspace.ofRoots settings source target))
      (Harvest.start settings.toNamespace settings))
      ⟨(Workspace.ofRoots settings source target).prepared session.files, session.progress ++ [.cleaned]⟩
      harvest first)
    (hrevise : Yields (reviseCopies (Workspace.ofRoots settings source target) harvest)
      ⟨first.files, first.progress ++ [.copied (harvest.classFiles.length + harvest.functionFiles.length)] ++
        [.replacing harvest.table.size]⟩ () second)
    (hplace : second.files.writablePlace (join (Workspace.ofRoots settings source target).target
      settings.manifestFile) = .ok place) :
    ∃ report, Session.convert settings source target session =
      (.ok report, ⟨second.files.put place (.file harvest.manifest.render.toUtf8),
        second.progress ++ [.done]⟩) := by
  have hclear : Yields (prepare (Workspace.ofRoots settings source target)) session ()
      ⟨(Workspace.ofRoots settings source target).prepared session.files, session.progress⟩ :=
    (Yields.attempt hwipe).bind (Yields.attempt hmake)
  have hwalk : Yields (sourceFiles settings (Workspace.ofRoots settings source target).source)
      ⟨(Workspace.ofRoots settings source target).prepared session.files, session.progress ++ [.cleaned]⟩
      files
      ⟨(Workspace.ofRoots settings source target).prepared session.files, session.progress ++ [.cleaned]⟩ := by
    rw [Yields, run_sourceFiles, hfiles]
  have hwrite : second.files.write (join (Workspace.ofRoots settings source target).target
      settings.manifestFile) harvest.manifest.render.toUtf8 =
      .ok (second.files.put place (.file harvest.manifest.render.toUtf8)) := by
    rw [FileSystem.write, hplace]
  change ∃ report, Yields (Namespacing.convert SessionM.tell settings source target) session report _
  unfold Namespacing.convert
  refine (Yields.check hcheck).exists_bind ((Yields.look _).exists_bind ?_)
  dsimp only
  rw [hsource, if_neg (by decide)]
  refine hclear.exists_bind ((Yields.tell _).exists_bind (hwalk.exists_bind (hharvest.exists_bind ?_)))
  refine (Yields.tell _).exists_bind ((Yields.tell _).exists_bind (hrevise.exists_bind ?_))
  exact (Yields.change hwrite).exists_bind ((Yields.tell .done).exists_bind ⟨_, Yields.pure _⟩)

theorem convert_of_missing_source (hcheck : settings.check = .ok ())
    (hmissing : session.files.pathIsDirectory (Workspace.ofRoots settings source target).source = false) :
    (Session.convert settings source target session).1 =
      .error (.sourceNotFound (Workspace.ofRoots settings source target).source) := by
  have hlook : Yields (liftM (Storage.isDirectory (Workspace.ofRoots settings source target).source :
      SessionM Bool)) session false session := by
    rw [← hmissing]
    rfl
  change ((Namespacing.convert SessionM.tell settings source target).run session).1 = _
  unfold Namespacing.convert
  rw [(Yields.check hcheck).run_bind]
  dsimp only
  rw [hlook.run_bind]
  rfl

/-- Where the walk finds nothing, the target tree gets an empty manifest and no copies. -/
theorem convert_of_no_files {place : Location} (hcheck : settings.check = .ok ())
    (hsource : session.files.pathIsDirectory (Workspace.ofRoots settings source target).source = true)
    (hwipe : (session.files.removeDirectories (Workspace.ofRoots settings source target).target).1 = .ok ())
    (hmake : ((session.files.removeDirectories
      (Workspace.ofRoots settings source target).target).2.createDirectories
      (Workspace.ofRoots settings source target).classDirectory).1 = .ok ())
    (hfiles : settings.filesIn (((Workspace.ofRoots settings source target).prepared session.files).tree
      (Workspace.ofRoots settings source target).source) = .ok [])
    (hplace : ((Workspace.ofRoots settings source target).prepared session.files).writablePlace
      (join (Workspace.ofRoots settings source target).target settings.manifestFile) = .ok place) :
    ∃ report progress, Session.convert settings source target session =
      (.ok report, ⟨((Workspace.ofRoots settings source target).prepared session.files).put place (.file []),
        progress⟩) := by
  obtain ⟨report, hrun⟩ := convert_yields hcheck hsource hwipe hmake hfiles (Yields.pure _)
    ((Yields.pure ()).bind (Yields.pure ())) hplace
  exact ⟨report, _, hrun⟩

theorem harvestFile_yields {workspace : Workspace} {harvest : Harvest} {file : SourceFile}
    {content : Bytes} {disk : FileSystem}
    (hread : session.files.read (file.path workspace.source) = .ok content)
    (hrole : (Source.mk file content).role = .classBearing)
    (hparent : parent? (join workspace.classDirectory file.name) = some workspace.classDirectory)
    (hmake : (session.files.createDirectories workspace.classDirectory).1 = .ok ())
    (hcopy : (session.files.createDirectories workspace.classDirectory).2.copy
      (file.path workspace.source) (join workspace.classDirectory file.name) = .ok disk) :
    ∃ harvest' : Harvest, Yields (harvestFile SessionM.tell workspace harvest file) session harvest'
        ⟨disk, session.progress⟩ ∧
      harvest'.classFiles = Harvest.addOnce harvest.classFiles (join workspace.classDirectory file.name) ∧
      harvest'.functionFiles = harvest.functionFiles := by
  unfold harvestFile
  refine ⟨{ harvest with
    table := harvest.table.add workspace.ns (Source.mk file content).symbols
    classFiles := Harvest.addOnce harvest.classFiles (join workspace.classDirectory file.name) },
    (Yields.readText hread).bind ?_, rfl, rfl⟩
  dsimp only
  have hsource : (Outline.ofSourceOrEmpty (Encoding.decode content).1).role = .classBearing := hrole
  rw [hsource]
  exact (Yields.copyFile hparent hmake hcopy).bind (Yields.pure _)

theorem reviseCopies_yields {workspace : Workspace} {harvest : Harvest} {path : Path} {content : Bytes}
    {place : Location} (hfunctions : harvest.functionFiles = []) (hclasses : harvest.classFiles = [path])
    (hread : session.files.read path = .ok content) (hencoding : (Encoding.decode content).2 = .utf8)
    (hplace : session.files.writablePlace path = .ok place) :
    ∃ revised, Yields (reviseCopies workspace harvest) session ()
      ⟨session.files.put place (.file revised), session.progress⟩ := by
  have hrevise := @Yields.reviseInPlace session path (Revision.classSource ⟨workspace.ns, harvest.table⟩)
    content _ place hread (by rw [hencoding]; rfl) hplace
  unfold reviseCopies
  rw [hfunctions, hclasses]
  exact ⟨_, (Yields.pure ()).bind (hrevise.bind (Yields.pure ()))⟩

theorem convert_of_class_file {file : SourceFile} {content copied : Bytes} {disk : FileSystem}
    {place place' : Location} (hcheck : settings.check = .ok ())
    (hsource : session.files.pathIsDirectory (Workspace.ofRoots settings source target).source = true)
    (hwipe : (session.files.removeDirectories (Workspace.ofRoots settings source target).target).1 = .ok ())
    (hmake : ((session.files.removeDirectories
      (Workspace.ofRoots settings source target).target).2.createDirectories
      (Workspace.ofRoots settings source target).classDirectory).1 = .ok ())
    (hfiles : settings.filesIn (((Workspace.ofRoots settings source target).prepared session.files).tree
      (Workspace.ofRoots settings source target).source) = .ok [file])
    (hread : ((Workspace.ofRoots settings source target).prepared session.files).read
      (file.path (Workspace.ofRoots settings source target).source) = .ok content)
    (hrole : (Source.mk file content).role = .classBearing)
    (hparent : parent? (join (Workspace.ofRoots settings source target).classDirectory file.name) =
      some (Workspace.ofRoots settings source target).classDirectory)
    (hagain : (((Workspace.ofRoots settings source target).prepared session.files).createDirectories
      (Workspace.ofRoots settings source target).classDirectory).1 = .ok ())
    (hcopy : (((Workspace.ofRoots settings source target).prepared session.files).createDirectories
      (Workspace.ofRoots settings source target).classDirectory).2.copy
      (file.path (Workspace.ofRoots settings source target).source)
      (join (Workspace.ofRoots settings source target).classDirectory file.name) = .ok disk)
    (hcopied : disk.read (join (Workspace.ofRoots settings source target).classDirectory file.name) =
      .ok copied)
    (hencoding : (Encoding.decode copied).2 = .utf8)
    (hplace : disk.writablePlace (join (Workspace.ofRoots settings source target).classDirectory file.name) =
      .ok place)
    (hmanifest : ∀ c, (disk.put place (.file c)).writablePlace
      (join (Workspace.ofRoots settings source target).target settings.manifestFile) = .ok place') :
    ∃ report after, Session.convert settings source target session = (.ok report, after) := by
  obtain ⟨harvest, hharvest, hclasses, hfunctions⟩ := @harvestFile_yields
    ⟨(Workspace.ofRoots settings source target).prepared session.files, session.progress ++ [.cleaned]⟩ _
    (Harvest.start settings.toNamespace settings) _ _ _ hread hrole hparent hagain hcopy
  obtain ⟨revised, hrevise⟩ := @reviseCopies_yields
    ⟨disk, session.progress ++ [.cleaned] ++
      [.copied (harvest.classFiles.length + harvest.functionFiles.length)] ++
      [.replacing harvest.table.size]⟩ (Workspace.ofRoots settings source target) harvest _ _ _ hfunctions
    hclasses hcopied hencoding hplace
  obtain ⟨report, hrun⟩ := convert_yields hcheck hsource hwipe hmake hfiles
    (hharvest.bind (Yields.pure harvest)) hrevise (hmanifest revised)
  exact ⟨report, _, hrun⟩

end

def libraryDisk (name : Name) (content : Bytes) : FileSystem :=
  ((FileSystem.empty.put ["s".toList] .directory).put ["src".toList, "s".toList] .directory).put
    [name, "src".toList, "s".toList] (.file content)

end Namespacing
