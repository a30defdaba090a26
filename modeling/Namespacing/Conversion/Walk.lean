import Namespacing.FileSystem.Storage
import Namespacing.Settings.Basic
import Namespacing.Glob
set_option autoImplicit false

namespace Namespacing

/-- A file that a walk found: the names that lead to it from the top of the walk. -/
structure SourceFile where
  names : List Name
  deriving DecidableEq, Repr

namespace SourceFile

def path (top : Path) (file : SourceFile) : Path := Path.extend top file.names

def relativePath (file : SourceFile) : Path := Text.joinWith ['/'] file.names

def name (file : SourceFile) : Name := (file.names.getLast?).getD []

def container (file : SourceFile) : Text := Path.stemOfName file.name

end SourceFile

namespace Settings

def excludes (settings : Settings) (name : Name) : Bool :=
  settings.excludedDirectories.contains name

def includes (settings : Settings) (name : Name) : Bool :=
  Glob.isMatch settings.filePattern name

/-- The source files in a tree, in order, or the first directory that cannot be read. -/
def filesIn (settings : Settings) (tree : Tree) : Except Tree.Obstacle (List SourceFile) :=
  match tree.files settings.excludes settings.includes with
  | .ok files => .ok (files.map SourceFile.mk)
  | .error obstacle => .error obstacle

end Settings

def Tree.Obstacle.fault (top : Path) (obstacle : Tree.Obstacle) : Fault :=
  .io obstacle.error (some ("read dir ".toList ++ Path.extend top obstacle.names))

def sourceFiles {m : Type → Type} [Monad m] [Storage m] (settings : Settings) (top : Path) :
    ExceptT Fault m (List SourceFile) :=
  ExceptT.mk do
    match settings.filesIn (← Storage.tree top) with
    | .ok files => return .ok files
    | .error obstacle => return .error (obstacle.fault top)

end Namespacing
