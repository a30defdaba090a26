import Namespacing.FileSystem.Resolve
set_option autoImplicit false

/-!
# Operations on files

Reading, writing, copying and removing by path. An operation that fails half-way leaves what it has
done: `createDirectories` and `removeDirectories` answer with the disk in any case, while the others
fail before they change anything.
-/

namespace Namespacing

namespace FileSystem

def read (fs : FileSystem) (path : Path) : Except IoError Bytes :=
  match fs.stat path with
  | .error error => .error error
  | .ok (_, .file content) => .ok content
  | .ok (_, .directory) => .error .isDirectory
  | .ok (_, .link _) => .error .tooManyLinks

def writablePlace (fs : FileSystem) (path : Path) : Except IoError Location :=
  match fs.locate .file path with
  | .error error => .error error
  | .ok (.here _) => .error .isDirectory
  | .ok (.named parent name slash) =>
    if slash || fs.isDirectory (name :: parent) then .error .isDirectory
    else .ok (name :: parent)

def write (fs : FileSystem) (path : Path) (content : Bytes) : Except IoError FileSystem :=
  match fs.writablePlace path with
  | .error error => .error error
  | .ok place => .ok (fs.put place (.file content))

/-- Copy a file. The target is emptied before the source is read, so copying a file onto itself empties
it. -/
def copy (fs : FileSystem) (source target : Path) : Except IoError FileSystem :=
  match fs.stat source with
  | .error error => .error error
  | .ok (origin, .file _) =>
    match fs.writablePlace target with
    | .error error => .error error
    | .ok place =>
      let emptied := fs.put place (.file [])
      match emptied.get? origin with
      | some (.file content) => .ok (emptied.put place (.file content))
      | _ => .ok emptied
  | .ok _ => .error .notRegularFile

def makeDirectory (fs : FileSystem) (path : Path) : Except IoError FileSystem :=
  match fs.locate .name path with
  | .error error => .error error
  | .ok (.here _) => .error .alreadyExists
  | .ok (.named parent name _) =>
    match fs.get? (name :: parent) with
    | some _ => .error .alreadyExists
    | none => .ok (fs.put (name :: parent) .directory)

def ensureDirectory (fs : FileSystem) (path : Path) : Except IoError FileSystem :=
  match fs.makeDirectory path with
  | .ok made => .ok made
  | .error error => if fs.pathIsDirectory path then .ok fs else .error error

/-- Make the first of some paths, each of which lies in the next. A path is tried first, and only if
its directory is missing are the ones above it made. The empty path needs nothing. -/
def ensureChain (fs : FileSystem) : List Path → Except IoError Unit × FileSystem
  | [] => (.ok (), fs)
  | path :: above =>
    if path.isEmpty then (.ok (), fs)
    else
      match fs.ensureDirectory path with
      | .ok made => (.ok (), made)
      | .error .notFound =>
        match fs.ensureChain above with
        | (.error error, made) => (.error error, made)
        | (.ok (), made) =>
          match made.ensureDirectory path with
          | .ok made => (.ok (), made)
          | .error error => (.error error, made)
      | .error error => (.error error, fs)

def createDirectories (fs : FileSystem) (path : Path) : Except IoError Unit × FileSystem :=
  fs.ensureChain (path :: Path.ancestors path)

def unnamedRemoval (path : Path) : IoError :=
  match ((Path.segments path).reverse.dropWhile List.isEmpty).head? with
  | some ['.'] => .invalidArgument
  | some ['.', '.'] => .notEmpty
  | _ => .busy

def removeEmpty (fs : FileSystem) (path : Path) : Except IoError Unit × FileSystem :=
  match fs.locate .name path with
  | .error .notFound => (.ok (), fs)
  | .error error => (.error error, fs)
  | .ok (.here _) => (.error (unnamedRemoval path), fs)
  | .ok (.named parent name _) =>
    match fs.node? (name :: parent) with
    | none => (.ok (), fs)
    | some (.directory []) => (.ok (), fs.removeTree (name :: parent))
    | some (.directory _) => (.error .notEmpty, fs)
    | some _ => (.error .notDirectory, fs)

/-- Remove a directory and all that lies below it. A path that leads nowhere is no failure, and of a
link only the link is removed. -/
def removeDirectories (fs : FileSystem) (path : Path) : Except IoError Unit × FileSystem :=
  if !fs.pathExists path then (.ok (), fs)
  else
    match fs.linkStat path with
    | .error error => (.error error, fs)
    | .ok (place, .link _) => (.ok (), fs.removeTree place)
    | .ok (_, .file _) => (.error .notDirectory, fs)
    | .ok (place, .directory) => (fs.clear place).removeEmpty path

def link (fs : FileSystem) (path target : Path) : Except IoError FileSystem :=
  if target.isEmpty then .error .notFound
  else if maxPathSize < Text.utf8Size target then .error .nameTooLong
  else
    match fs.locate .name path with
    | .error error => .error error
    | .ok (.here _) => .error .alreadyExists
    | .ok (.named parent name slash) =>
      match fs.get? (name :: parent) with
      | some _ => .error .alreadyExists
      | none => if slash then .error .notFound else .ok (fs.put (name :: parent) (.link target))

end FileSystem

end Namespacing
