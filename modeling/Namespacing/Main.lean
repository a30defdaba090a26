import Namespacing.CommandLine.Run
set_option autoImplicit false

namespace Namespacing

namespace Disk

def errorCode : IO.Error → Nat
  | .alreadyExists _ code _ => code.toNat
  | .otherError code _ => code.toNat
  | .resourceBusy code _ => code.toNat
  | .resourceVanished code _ => code.toNat
  | .unsupportedOperation code _ => code.toNat
  | .hardwareFault code _ => code.toNat
  | .unsatisfiedConstraints code _ => code.toNat
  | .illegalOperation code _ => code.toNat
  | .protocolError code _ => code.toNat
  | .timeExpired code _ => code.toNat
  | .interrupted _ code _ => code.toNat
  | .noFileOrDirectory _ code _ => code.toNat
  | .invalidArgument _ code _ => code.toNat
  | .permissionDenied _ code _ => code.toNat
  | .resourceExhausted _ code _ => code.toNat
  | .inappropriateType _ code _ => code.toNat
  | .noSuchThing _ code _ => code.toNat
  | _ => 0

def reason (error : IO.Error) : IoError :=
  (IoError.ofCode? (errorCode error)).getD (.other (toString error).toList)

def guarded {α : Type} (calls : IO α) : IO (Except IoError α) := do
  try
    return .ok (← calls)
  catch error =>
    return .error (reason error)

def handle (path : Path) : IO.FS.DirEntry :=
  { root := String.ofList path, fileName := String.ofList path }

def kind? (path : Path) : IO (Option IO.FS.FileType) := do
  try
    return some (← (handle path).root.metadata).type
  catch _ =>
    return none

def isDirectory (path : Path) : IO Bool := do
  match ← kind? path with
  | some .dir => return true
  | _ => return false

def isFile (path : Path) : IO Bool := do
  match ← kind? path with
  | some .file => return true
  | _ => return false

/-- The tree of a directory. An entry that cannot be looked at counts as a directory that cannot be
read. -/
partial def tree (path : Path) : IO Tree := do
  match ← guarded (handle path).root.readDir with
  | .error error => return .unreadable error
  | .ok entries =>
    let mut children : List (Name × Tree) := []
    for entry in entries do
      let name := entry.fileName.toList
      let reached := Path.join path name
      let found ←
        match ← guarded (handle reached).root.symlinkMetadata with
        | .error error => pure (.unreadable error)
        | .ok metadata =>
          match metadata.type with
          | .dir => tree reached
          | _ => pure (.leaf (← isFile reached))
      children := (name, found) :: children
    return .folder children

def read (path : Path) : IO (Except IoError Bytes) :=
  guarded do
    let content ← IO.FS.readBinFile (handle path).root
    return content.toList

def write (path : Path) (content : Bytes) : IO (Except IoError Unit) :=
  guarded (IO.FS.writeBinFile (handle path).root (ByteArray.mk content.toArray))

def copy (source target : Path) : IO (Except IoError Unit) := do
  match ← kind? source with
  | some .dir => return .error .notRegularFile
  | _ =>
    match ← read source with
    | .error error => return .error error
    | .ok content => write target content

def ensureDirectory (path : Path) : IO (Except IoError Unit) := do
  match ← guarded (IO.FS.createDir (handle path).root) with
  | .ok () => return .ok ()
  | .error error => if ← isDirectory path then return .ok () else return .error error

def ensureChain : List Path → IO (Except IoError Unit)
  | [] => return .ok ()
  | path :: above => do
    if path.isEmpty then return .ok ()
    match ← ensureDirectory path with
    | .error .notFound =>
      match ← ensureChain above with
      | .error error => return .error error
      | .ok () => ensureDirectory path
    | outcome => return outcome

/-- Remove a directory and all that lies below it, if it is there; of a link, only the link. -/
def removeDirectories (path : Path) : IO (Except IoError Unit) := do
  match ← kind? path with
  | none => return .ok ()
  | some _ =>
    guarded do
      match (← (handle path).root.symlinkMetadata).type with
      | .symlink => IO.FS.removeFile (handle path).root
      | _ => IO.FS.removeDirAll (handle path).root

end Disk

instance : Storage IO where
  isDirectory := Disk.isDirectory
  isFile := Disk.isFile
  tree := Disk.tree
  read := Disk.read
  write := Disk.write
  copy := Disk.copy
  createDirectories path := Disk.ensureChain (path :: Path.ancestors path)
  removeDirectories := Disk.removeDirectories

def usage : String :=
  "Usage: phpns convert [--namespace ROOT] [--config FILE] [--json] SOURCE TARGET\n" ++
    "       phpns symbols FILE\n       phpns --version\n"

end Namespacing

open Namespacing in
def main (arguments : List String) : IO UInt32 := do
  match Command.parse? (arguments.map String.toList) with
  | none =>
    IO.eprint usage
    return 2
  | some command =>
    let home? ← IO.getEnv "HOME"
    let emit (progress : Progress) : IO Unit := IO.print (String.ofList progress.output)
    let response ← command.run emit (home?.map String.toList)
    IO.print (String.ofList response.stdout)
    IO.eprint (String.ofList response.stderr)
    return UInt32.ofNat response.exitCode
