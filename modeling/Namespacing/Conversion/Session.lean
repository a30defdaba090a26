import Namespacing.Conversion.Run
set_option autoImplicit false

namespace Namespacing

/-- A file system and the progress told so far. -/
structure Session where
  files : FileSystem
  progress : List Progress

abbrev SessionM := StateM Session

namespace SessionM

def look {α : Type} (view : FileSystem → α) : SessionM α := fun session =>
  (view session.files, session)

def change (operation : FileSystem → Except IoError FileSystem) : SessionM (Except IoError Unit) :=
  fun session =>
    match operation session.files with
    | .ok files => (.ok (), { session with files })
    | .error error => (.error error, session)

/-- Change the file system by an operation that may leave something done when it fails. -/
def attempt (operation : FileSystem → Except IoError Unit × FileSystem) :
    SessionM (Except IoError Unit) :=
  fun session =>
    let (outcome, files) := operation session.files
    (outcome, { session with files })

def tell (progress : Progress) : SessionM Unit := fun session =>
  ((), { session with progress := session.progress ++ [progress] })

end SessionM

instance : Storage SessionM where
  isDirectory path := SessionM.look (·.pathIsDirectory path)
  isFile path := SessionM.look (·.pathIsFile path)
  tree path := SessionM.look (·.tree path)
  read path := SessionM.look (·.read path)
  write path content := SessionM.change (·.write path content)
  copy source target := SessionM.change (·.copy source target)
  createDirectories path := SessionM.attempt (·.createDirectories path)
  removeDirectories path := SessionM.attempt (·.removeDirectories path)

def Session.convert (settings : Settings) (source target : Path) :
    SessionM (Except Fault Report) :=
  Namespacing.convert SessionM.tell settings source target

end Namespacing
