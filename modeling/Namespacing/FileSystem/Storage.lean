import Namespacing.FileSystem.Tree
import Namespacing.Text.Encoding
import Namespacing.Fault
set_option autoImplicit false

namespace Namespacing

/-- A monad with a disk. -/
class Storage (m : Type → Type) where
  isDirectory : Path → m Bool
  isFile : Path → m Bool
  tree : Path → m Tree
  read : Path → m (Except IoError Bytes)
  write : Path → Bytes → m (Except IoError Unit)
  copy : Path → Path → m (Except IoError Unit)
  createDirectories : Path → m (Except IoError Unit)
  removeDirectories : Path → m (Except IoError Unit)

namespace Storage

variable {m : Type → Type} [Monad m] [Storage m]

def inContext {α : Type} (context : Text) (operation : m (Except IoError α)) : ExceptT Fault m α :=
  ExceptT.mk do
    match ← operation with
    | .ok value => return .ok value
    | .error error => return .error (.io error (some context))

def readUtf8 (path : Path) (context : Text) : ExceptT Fault m Text := do
  let content ← inContext context (read path)
  match Bytes.utf8? content with
  | some text => return text
  | none => throw (.io .invalidUtf8 (some context))

def writeUtf8 (path : Path) (text context : Text) : ExceptT Fault m Unit :=
  inContext context (write path text.toUtf8)

def readText (path : Path) (context : Text) : ExceptT Fault m (Text × Encoding) := do
  let content ← inContext context (read path)
  return Encoding.decode content

/-- Write a text in an encoding. Nothing is written if the encoding lacks one of its characters. -/
def writeText (path : Path) (text : Text) (encoding : Encoding) (context : Text) :
    ExceptT Fault m Unit :=
  match encoding.encode? text with
  | some content => inContext context (write path content)
  | none => throw (.unexpected (context ++ ": unicode code point out of range".toList))

def makeDirectories (path : Path) : ExceptT Fault m Unit :=
  inContext ("create ".toList ++ path) (createDirectories path)

def wipe (path : Path) : ExceptT Fault m Unit :=
  inContext ("remove ".toList ++ path) (removeDirectories path)

def copyFile (source target : Path) : ExceptT Fault m Unit := do
  match Path.parent? target with
  | some parent => makeDirectories parent
  | none => pure ()
  inContext ("copy ".toList ++ source ++ " → ".toList ++ target) (copy source target)

end Storage

end Namespacing
