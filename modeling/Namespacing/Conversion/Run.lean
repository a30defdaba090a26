import Namespacing.Conversion.Report
import Namespacing.Conversion.Walk
import Namespacing.Conversion.Revision
import Namespacing.GlobalClasses
set_option autoImplicit false

namespace Namespacing

structure Harvest where
  table : RenameTable
  classFiles : List Path
  functionFiles : List Path
  skipped : List Path
  manifest : Manifest

namespace Harvest

/-- Before the first file: the renames of the runtime classes. -/
def start (ns : Namespace) (settings : Settings) : Harvest where
  table := RenameTable.empty.add ns (.globals (GlobalClasses.withExtra settings.extraGlobals))
  classFiles := []
  functionFiles := []
  skipped := []
  manifest := []

def addOnce (paths : List Path) (path : Path) : List Path :=
  if paths.contains path then paths else paths ++ [path]

end Harvest

structure Workspace where
  ns : Namespace
  source : Path
  target : Path

namespace Workspace

def treeName : Name := "src".toList

def ofRoots (settings : Settings) (source target : Path) : Workspace :=
  ⟨settings.toNamespace, Path.join source treeName, Path.join target treeName⟩

def classDirectory (workspace : Workspace) : Path :=
  Path.join workspace.target workspace.ns.directory

def functionDirectory (workspace : Workspace) : Path :=
  Path.join workspace.classDirectory workspace.ns.functionsSegment

end Workspace

section

variable {m : Type → Type} [Monad m] [Storage m]

def prepare (workspace : Workspace) : ExceptT Fault m Unit := do
  Storage.wipe workspace.target
  Storage.makeDirectories workspace.classDirectory

/-- Copy one source file to its place and collect its renames; a file that declares nothing is
skipped. -/
def harvestFile (emit : Progress → m Unit) (workspace : Workspace) (harvest : Harvest)
    (file : SourceFile) : ExceptT Fault m Harvest := do
  let path := file.path workspace.source
  let (text, _) ← Storage.readText path ("read ".toList ++ path)
  let outline := Outline.ofSourceOrEmpty text
  let symbols := Symbols.ofOutline file.container outline
  match outline.role with
  | .classBearing =>
    let destination := Path.join workspace.classDirectory file.name
    Storage.copyFile path destination
    return { harvest with
      table := harvest.table.add workspace.ns symbols
      classFiles := Harvest.addOnce harvest.classFiles destination }
  | .functionBearing =>
    let destination := Path.join workspace.functionDirectory file.name
    Storage.copyFile path destination
    return { harvest with
      table := harvest.table.add workspace.ns symbols
      manifest := harvest.manifest ++ symbols.manifest workspace.ns
      functionFiles := Harvest.addOnce harvest.functionFiles destination }
  | .unclassified =>
    emit (.skipped file.relativePath)
    return { harvest with skipped := harvest.skipped ++ [file.relativePath] }

def reviseCopies (workspace : Workspace) (harvest : Harvest) : ExceptT Fault m Unit := do
  let revision : Revision := ⟨workspace.ns, harvest.table⟩
  harvest.functionFiles.forM revision.functionFile
  harvest.classFiles.forM revision.classFile

def convert (emit : Progress → m Unit) (settings : Settings) (source target : Path) :
    ExceptT Fault m Report := do
  ExceptT.mk (pure settings.check)
  let workspace := Workspace.ofRoots settings source target
  let present ← (Storage.isDirectory workspace.source : m Bool)
  if !present then throw (.sourceNotFound workspace.source)
  prepare workspace
  emit .cleaned
  let files ← sourceFiles settings workspace.source
  let harvest ← files.foldlM (harvestFile emit workspace) (Harvest.start workspace.ns settings)
  let copied := harvest.classFiles.length + harvest.functionFiles.length
  emit (.copied copied)
  emit (.replacing harvest.table.size)
  reviseCopies workspace harvest
  let manifestPath := Path.join workspace.target settings.manifestFile
  harvest.manifest.writeTo manifestPath
  emit .done
  return {
    root := workspace.ns.root
    directory := workspace.classDirectory
    classFiles := harvest.classFiles
    functionFiles := harvest.functionFiles
    skipped := harvest.skipped
    copied := copied
    renames := harvest.table.size
    release := GlobalClasses.release
    functions := harvest.manifest
    manifestPath := manifestPath }

end

end Namespacing
